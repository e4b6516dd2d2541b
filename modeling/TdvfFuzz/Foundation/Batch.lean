import Mathlib.Algebra.GroupWithZero.Nat
import Mathlib.Algebra.Order.BigOperators.Group.Finset
import Mathlib.Algebra.Order.Ring.Nat
import TdvfFuzz.Foundation.Transition

/-!
# Batches of jobs with a file of their own

Several processes work through lists of jobs side by side.  A job empties its
output file when it starts and fills it when it ends.  If no two jobs have the
same output and no job reads one, all interleavings leave the same files.
-/

namespace TdvfFuzz.Foundation

universe u v w

/-- A job whose result is `none` does not start. -/
structure BatchJob (ν : Type u) (χ : Type v) where
  output : ν
  result : (ν → Option χ) → Option χ

structure Batch (ι : Type w) (ν : Type u) (χ : Type v) where
  chunks : ι → List (BatchJob ν χ)
  separate : ∀ i, ((chunks i).map BatchJob.output).Nodup
  disjoint : ∀ i j, i ≠ j → ∀ job ∈ chunks i, ∀ other ∈ chunks j, job.output ≠ other.output
  independent : ∀ i, ∀ job ∈ chunks i, ∀ files files' : ν → Option χ,
    (∀ name, (∀ j, ∀ other ∈ chunks j, other.output ≠ name) → files name = files' name) →
      job.result files = job.result files'

structure BatchState (ι : Type w) (ν : Type u) (χ : Type v) where
  rest : ι → List (BatchJob ν χ)
  /-- Whether the first job of the rest has started. -/
  started : ι → Bool
  files : ν → Option χ

namespace Batch

section

variable {ι : Type w} {ν : Type u} {χ : Type v}

/-- What a file holds when all jobs have ended. -/
structure Settled (b : Batch ι ν χ) (files : ν → Option χ) (name : ν) (content : Option χ) :
    Prop where
  output : ∀ i, ∀ job ∈ b.chunks i, job.output = name → content = (job.result files <|> files name)
  other : (∀ i, ∀ job ∈ b.chunks i, job.output ≠ name) → content = files name

theorem eq_of_output_eq (b : Batch ι ν χ) {i j : ι} {job other : BatchJob ν χ}
    (hjob : job ∈ b.chunks i) (hother : other ∈ b.chunks j) (h : job.output = other.output) :
    job = other := by
  have hij : i = j := by
    by_contra hij
    exact b.disjoint i j hij job hjob other hother h
  subst hij
  exact List.inj_on_of_nodup_map (b.separate i) hjob hother h

/-! ## The files on the way -/

structure Invariant (b : Batch ι ν χ) (files : ν → Option χ) (s : BatchState ι ν χ) : Prop where
  suffix : ∀ i, s.rest i <:+ b.chunks i
  started : ∀ i, s.started i = true → ∃ job jobs, s.rest i = job :: jobs ∧
    (job.result files).isSome = true
  ended : ∀ name, (∀ i, ∀ job ∈ s.rest i, job.output ≠ name) →
    b.Settled files name (s.files name)
  waiting : ∀ i, ∀ job ∈ (if s.started i then (s.rest i).tail else s.rest i),
    s.files job.output = files job.output

variable {b : Batch ι ν χ} {files : ν → Option χ} {s : BatchState ι ν χ}

namespace Invariant

theorem mem_chunks (h : b.Invariant files s) {i : ι} {job : BatchJob ν χ} (hjob : job ∈ s.rest i) :
    job ∈ b.chunks i :=
  (h.suffix i).subset hjob

theorem result_eq (h : b.Invariant files s) {i : ι} {job : BatchJob ν χ} (hjob : job ∈ s.rest i) :
    job.result s.files = job.result files := by
  apply b.independent i job (h.mem_chunks hjob)
  intro name hname
  exact (h.ended name fun j other hother => hname j other (h.mem_chunks hother)).other hname

/-- The output of the first job is not that of another job that is left. -/
theorem output_ne (h : b.Invariant files s) {i j : ι} {job other : BatchJob ν χ}
    {jobs : List (BatchJob ν χ)} (hrest : s.rest i = job :: jobs) (hother : other ∈ s.rest j)
    (hij : i = j → other ∈ jobs) : other.output ≠ job.output := by
  intro houtput
  have hjob : job ∈ s.rest i := by simp [hrest]
  by_cases heq : i = j
  · have hnodup : ((s.rest i).map BatchJob.output).Nodup :=
      (b.separate i).sublist ((h.suffix i).sublist.map _)
    rw [hrest, List.map_cons, List.nodup_cons] at hnodup
    exact hnodup.1 (houtput ▸ List.mem_map_of_mem (hij heq))
  · exact b.disjoint i j heq job (h.mem_chunks hjob) other (h.mem_chunks hother) houtput.symm

theorem mem_of_mem_waiting {c : Bool} {jobs : List (BatchJob ν χ)} {job : BatchJob ν χ}
    (h : job ∈ (if c then jobs.tail else jobs)) : job ∈ jobs := by
  split at h
  · exact List.mem_of_mem_tail h
  · exact h

end Invariant

/-! ## Steps -/

variable [DecidableEq ι]

theorem Invariant.suffix_tail (h : b.Invariant files s) {i : ι} {job : BatchJob ν χ}
    {jobs : List (BatchJob ν χ)} (hrest : s.rest i = job :: jobs) (j : ι) :
    Function.update s.rest i jobs j <:+ b.chunks j := by
  by_cases hj : j = i
  · subst hj
    rw [Function.update_self]
    exact ((List.suffix_cons job jobs).trans (hrest ▸ List.suffix_rfl)).trans (h.suffix j)
  · rw [Function.update_of_ne hj]
    exact h.suffix j

variable [DecidableEq ν]

/-- `i` is the process that takes the next step; `blank` is an empty file. -/
def step (blank : χ) (s : BatchState ι ν χ) (i : ι) : Option (BatchState ι ν χ) :=
  match s.rest i, s.started i with
  | [], _ => none
  | job :: jobs, false =>
      if (job.result s.files).isSome then
        some { s with
          started := Function.update s.started i true
          files := Function.update s.files job.output (some blank) }
      else some { s with rest := Function.update s.rest i jobs }
  | job :: jobs, true =>
      some
        { rest := Function.update s.rest i jobs
          started := Function.update s.started i false
          files := Function.update s.files job.output (job.result s.files) }

def machine (b : Batch ι ν χ) (blank : χ) (files : ν → Option χ) :
    Machine (BatchState ι ν χ) ι where
  init := ⟨b.chunks, fun _ => false, files⟩
  step := step blank

inductive Step (blank : χ) (s : BatchState ι ν χ) (i : ι) : BatchState ι ν χ → Prop
  | skip {job : BatchJob ν χ} {jobs : List (BatchJob ν χ)} (hrest : s.rest i = job :: jobs)
      (hstarted : s.started i = false) (hresult : job.result s.files = none) :
      Step blank s i { s with rest := Function.update s.rest i jobs }
  | start {job : BatchJob ν χ} {jobs : List (BatchJob ν χ)} (hrest : s.rest i = job :: jobs)
      (hstarted : s.started i = false) (hresult : (job.result s.files).isSome = true) :
      Step blank s i
        { s with
          started := Function.update s.started i true
          files := Function.update s.files job.output (some blank) }
  | finish {job : BatchJob ν χ} {jobs : List (BatchJob ν χ)} (hrest : s.rest i = job :: jobs)
      (hstarted : s.started i = true) :
      Step blank s i
        { rest := Function.update s.rest i jobs
          started := Function.update s.started i false
          files := Function.update s.files job.output (job.result s.files) }

theorem step_cases {blank : χ} {s s' : BatchState ι ν χ} {i : ι} (h : step blank s i = some s') :
    Step blank s i s' := by
  unfold step at h
  cases hrest : s.rest i with
  | nil => simp [hrest] at h
  | cons job jobs =>
      cases hstarted : s.started i with
      | false =>
          simp only [hrest, hstarted] at h
          split at h
          case isTrue hresult =>
            obtain rfl := Option.some.inj h
            exact .start hrest hstarted hresult
          case isFalse hresult =>
            obtain rfl := Option.some.inj h
            exact .skip hrest hstarted (by simpa using hresult)
      | true =>
          simp only [hrest, hstarted] at h
          obtain rfl := Option.some.inj h
          exact .finish hrest hstarted

theorem invariant_init (b : Batch ι ν χ) (blank : χ) (files : ν → Option χ) :
    b.Invariant files (b.machine blank files).init where
  suffix _ := List.suffix_rfl
  started i h := absurd h (by simp [machine])
  ended name h := ⟨fun i job hjob hname => absurd hname (h i job hjob), fun _ => rfl⟩
  waiting _ _ _ := rfl

namespace Invariant

/-- Behind the first job of `i`, its output alone gets settled. -/
theorem ended_tail (h : b.Invariant files s) {i : ι} {job : BatchJob ν χ}
    {jobs : List (BatchJob ν χ)} (hrest : s.rest i = job :: jobs) {files' : ν → Option χ}
    (hsame : ∀ name, name ≠ job.output → files' name = s.files name)
    (houtput : files' job.output = (job.result files <|> files job.output)) (name : ν)
    (hname : ∀ j, ∀ other ∈ Function.update s.rest i jobs j, other.output ≠ name) :
    b.Settled files name (files' name) := by
  have hjob : job ∈ b.chunks i := h.mem_chunks (by simp [hrest])
  by_cases houtput_eq : name = job.output
  · subst houtput_eq
    constructor
    case output =>
      intro j other hother heq
      rw [b.eq_of_output_eq hother hjob heq]
      exact houtput
    case other => exact fun hnone => absurd rfl (hnone i job hjob)
  · rw [hsame name houtput_eq]
    apply h.ended
    intro j other hother
    by_cases hj : j = i
    · subst hj
      rw [hrest, List.mem_cons] at hother
      rcases hother with rfl | hother
      · exact Ne.symm houtput_eq
      · exact hname j other (by simpa using hother)
    · exact hname j other (by simpa [hj] using hother)

theorem step (h : b.Invariant files s) {blank : χ} {i : ι} {s' : BatchState ι ν χ}
    (hstep : Step blank s i s') : b.Invariant files s' := by
  cases hstep with
  | skip hrest hstarted hresult =>
      rename_i job jobs
      have hjob : job ∈ s.rest i := by simp [hrest]
      have hkept : s.files job.output = files job.output :=
        h.waiting i job (by simpa [hstarted] using hjob)
      constructor
      case suffix => exact h.suffix_tail hrest
      case started =>
        intro j hj
        have hji : j ≠ i := by
          rintro rfl
          simp [hstarted] at hj
        simpa [hji] using h.started j hj
      case ended =>
        apply h.ended_tail hrest (fun _ _ => rfl)
        rw [← h.result_eq hjob, hresult, hkept]
        rfl
      case waiting =>
        intro j other hother
        apply h.waiting j other
        by_cases hj : j = i
        · subst hj
          simp only [hstarted, Bool.false_eq_true, if_false, Function.update_self] at hother ⊢
          simp [hrest, hother]
        · simpa [hj] using hother
  | start hrest hstarted hresult =>
      rename_i job jobs
      have hjob : job ∈ s.rest i := by simp [hrest]
      constructor
      case suffix => exact h.suffix
      case started =>
        intro j hj
        by_cases hji : j = i
        · subst hji
          exact ⟨job, jobs, hrest, by rwa [← h.result_eq hjob]⟩
        · exact h.started j (by simpa [hji] using hj)
      case ended =>
        intro name hname
        dsimp only at hname ⊢
        rw [Function.update_of_ne (Ne.symm (hname i job hjob))]
        exact h.ended name hname
      case waiting =>
        intro j other hother
        dsimp only at hother ⊢
        have hmem : other ∈ s.rest j := mem_of_mem_waiting hother
        have hne : other.output ≠ job.output := by
          apply h.output_ne hrest hmem
          rintro rfl
          simpa [hrest] using hother
        rw [Function.update_of_ne hne]
        apply h.waiting j other
        by_cases hj : j = i
        · subst hj
          simpa [hstarted] using hmem
        · simpa [hj] using hother
  | finish hrest hstarted =>
      rename_i job jobs
      have hjob : job ∈ s.rest i := by simp [hrest]
      obtain ⟨first, rest, hfirst, hresult⟩ := h.started i hstarted
      obtain ⟨rfl, rfl⟩ := List.cons.inj (hrest.symm.trans hfirst)
      constructor
      case suffix => exact h.suffix_tail hrest
      case started =>
        intro j hj
        have hji : j ≠ i := by
          rintro rfl
          simp at hj
        simpa [hji] using h.started j (by simpa [hji] using hj)
      case ended =>
        apply h.ended_tail hrest (fun name hname => Function.update_of_ne hname _ _)
        obtain ⟨content, hcontent⟩ := Option.isSome_iff_exists.mp hresult
        dsimp only
        rw [Function.update_self, h.result_eq hjob, hcontent]
        rfl
      case waiting =>
        intro j other hother
        dsimp only at hother ⊢
        have hwaits : other ∈ (if s.started j then (s.rest j).tail else s.rest j) := by
          by_cases hj : j = i
          · subst hj
            simpa [hstarted, hrest] using hother
          · simpa [hj] using hother
        have hne : other.output ≠ job.output := by
          apply h.output_ne hrest (mem_of_mem_waiting hwaits)
          rintro rfl
          simpa using hother
        rw [Function.update_of_ne hne]
        exact h.waiting j other hwaits

end Invariant

/-! ## Whole runs -/

def Finished (s : BatchState ι ν χ) : Prop := ∀ i, s.rest i = []

def stepsLeft (s : BatchState ι ν χ) (i : ι) : ℕ :=
  2 * (s.rest i).length - if s.started i then 1 else 0

def remaining [Fintype ι] (s : BatchState ι ν χ) : ℕ := ∑ i, stepsLeft s i

theorem invariant_of_reachable {blank : χ} (h : (b.machine blank files).Reachable s) :
    b.Invariant files s :=
  h.invariant (b.invariant_init blank files) fun _ _ _ hs hstep => hs.step (step_cases hstep)

/-- All interleavings leave the same files. -/
theorem settled_of_finished {blank : χ} (h : (b.machine blank files).Reachable s)
    (hfinished : Finished s) (name : ν) : b.Settled files name (s.files name) :=
  (invariant_of_reachable h).ended name fun i job hjob => by simp [hfinished i] at hjob

theorem Step.remaining_lt [Fintype ι] {blank : χ} {i : ι} {s' : BatchState ι ν χ}
    (h : Step blank s i s') : remaining s' < remaining s := by
  have hother : ∀ j, j ≠ i → stepsLeft s' j = stepsLeft s j := by
    intro j hj
    cases h <;> simp [stepsLeft, hj]
  have hself : stepsLeft s' i < stepsLeft s i := by
    cases h with
    | skip hrest hstarted _ => simp [stepsLeft, hrest, hstarted]
    | start hrest hstarted _ =>
        simp only [stepsLeft, hrest, hstarted, Function.update_self, List.length_cons, if_true,
          Bool.false_eq_true, if_false]
        omega
    | finish hrest hstarted =>
        simp only [stepsLeft, hrest, hstarted, Function.update_self, List.length_cons, if_true,
          Bool.false_eq_true, if_false]
        omega
  apply Finset.sum_lt_sum
  · intro j _
    by_cases hj : j = i
    · subst hj
      exact hself.le
    · exact (hother j hj).le
  · exact ⟨i, Finset.mem_univ i, hself⟩

/-- No run takes more steps than twice the number of jobs. -/
theorem length_le_of_run [Fintype ι] {blank : χ} {s' : BatchState ι ν χ} {schedule : List ι}
    (h : (b.machine blank files).run s schedule = some s') :
    schedule.length + remaining s' ≤ remaining s := by
  induction schedule generalizing s with
  | nil =>
      obtain rfl : s = s' := by simpa [Machine.run] using h
      simp
  | cons i schedule ih =>
      obtain ⟨next, hnext, hrest⟩ := Option.bind_eq_some_iff.mp h
      have hlt := (step_cases hnext).remaining_lt
      have hle := ih hrest
      rw [List.length_cons]
      omega

theorem exists_step_of_not_finished (blank : χ) (h : ¬ Finished s) :
    ∃ i s', step blank s i = some s' := by
  obtain ⟨i, hi⟩ := not_forall.mp h
  obtain ⟨job, jobs, hrest⟩ := List.exists_cons_of_ne_nil hi
  refine ⟨i, ?_⟩
  cases hstarted : s.started i with
  | false =>
      unfold step
      simp only [hrest, hstarted]
      split <;> exact ⟨_, rfl⟩
  | true => exact ⟨_, by simp only [step, hrest, hstarted]; rfl⟩

end

end Batch

end TdvfFuzz.Foundation
