import Mathlib.Algebra.GroupWithZero.Nat
import Mathlib.Data.List.Nodup
import Mathlib.Data.Nat.Find
import TdvfFuzz.Foundation.Pool

/-!
# The order in which pooled jobs go on

The queue is first in, first out, so a dependency leaves it before its
dependent.  Hence no set of blocked jobs can occupy every thread.
-/

namespace TdvfFuzz.Foundation

universe u

namespace Pool

variable {α : Type u}

/-! ## The invariant -/

/--
The queue lists the queued jobs, a dependency comes before its dependent, and
no job has got further than its dependency allows.
-/
structure Sound (holds : Bool) (p : Pool α) : Prop where
  earlier : ∀ i d, p.after i = some d → d < i
  queued : ∀ i, i ∈ p.queue ↔ p.status i = some .queued
  once : p.queue.Nodup
  fifo : p.queue.Pairwise fun i k => p.after i ≠ some k
  behind : ∀ i d status dep, p.after i = some d → p.status i = some status →
    p.status d = some dep → status.Follows holds dep
  waits : ∀ i, p.status i = some .pending → holds = true ∧ ∃ d, p.after i = some d

theorem Sound.empty (holds : Bool) : Sound holds (Pool.empty : Pool α) where
  earlier := by simp [Pool.empty, after]
  queued := by simp [Pool.empty, Pool.status]
  once := List.nodup_nil
  fifo := List.Pairwise.nil
  behind := by simp [Pool.empty, after]
  waits := by simp [Pool.empty, Pool.status]

theorem status_eq_none_of_le {p : Pool α} {k : ℕ} (h : p.jobs.length ≤ k) : p.status k = none := by
  simp [Pool.status, List.getElem?_eq_none h]

theorem exists_status_of_after {p : Pool α} {k d : ℕ} (h : p.after k = some d) :
    ∃ status, p.status k = some status := by
  obtain ⟨j, hj, -⟩ := Option.bind_eq_some_iff.mp h
  exact ⟨j.status, by simp [Pool.status, hj]⟩

theorem lt_of_status {p : Pool α} {k : ℕ} {status : JobStatus} (h : p.status k = some status) :
    k < p.jobs.length := by
  by_contra hle
  rw [status_eq_none_of_le (Nat.not_lt.mp hle)] at h
  contradiction

/-- The condition asks for a dependency that was submitted before. -/
theorem Sound.submit {holds : Bool} {p : Pool α} (h : Sound holds p) (app : α)
    {dependency : Option ℕ} (hknown : ∀ d ∈ dependency, d < p.jobs.length) :
    Sound holds (p.submit holds app dependency) := by
  have hnew : p.jobs.length ∉ p.queue := by
    intro hmem
    exact Nat.lt_irrefl _ (lt_of_status ((h.queued _).mp hmem))
  have hqueue : (p.submit holds app dependency).queue =
      if holds ∧ dependency.isSome then p.queue else p.queue ++ [p.jobs.length] := by
    unfold Pool.submit
    split <;> rfl
  have hold : ∀ i ∈ p.queue, i ≠ p.jobs.length := fun i hi hlast => hnew (hlast ▸ hi)
  constructor
  case earlier =>
    intro i d hafter
    rw [after_submit] at hafter
    split at hafter
    case isTrue hi => exact hi ▸ hknown d hafter
    case isFalse => exact h.earlier i d hafter
  case queued =>
    intro i
    rw [status_submit, hqueue]
    by_cases hi : i = p.jobs.length
    · subst hi
      by_cases hheld : holds ∧ dependency.isSome
      · simp [hheld, hnew]
      · simp [hheld]
    · rw [if_neg hi, ← h.queued i]
      split <;> simp [hi]
  case once =>
    rw [hqueue]
    split
    · exact h.once
    · exact h.once.append (List.nodup_singleton _) (by simpa using hnew)
  case fifo =>
    have hkeep : p.queue.Pairwise fun i k => (p.submit holds app dependency).after i ≠ some k :=
      h.fifo.imp_of_mem fun hi _ hne => by rwa [after_submit, if_neg (hold _ hi)]
    rw [hqueue]
    split
    · exact hkeep
    · refine List.pairwise_append.mpr ⟨hkeep, List.pairwise_singleton _ _, ?_⟩
      intro i hi k hk hafter
      rw [after_submit, if_neg (hold i hi), List.mem_singleton.mp hk] at hafter
      have := h.earlier i _ hafter
      have := lt_of_status ((h.queued i).mp hi)
      omega
  case behind =>
    intro i d status dep hafter hstatus hdep
    rw [after_submit] at hafter
    rw [status_submit] at hstatus hdep
    split at hafter
    case isTrue hi =>
      have hlt := hknown d hafter
      rw [if_neg (Nat.ne_of_lt hlt)] at hdep
      rw [if_pos hi, hafter] at hstatus
      -- a queued dependent means that the pool does not hold jobs back
      cases hholds : holds with
      | true =>
          simp only [hholds, Option.isSome_some, and_self, if_true, Option.some.injEq] at hstatus
          exact hstatus ▸ trivial
      | false =>
          simp only [hholds, Bool.false_eq_true, false_and, if_false, Option.some.injEq] at hstatus
          subst hstatus
          refine ⟨?_, by simp⟩
          rintro rfl
          have := (h.waits d hdep).1
          simp [hholds] at this
    case isFalse hi =>
      have hd := h.earlier i d hafter
      obtain ⟨own, hown⟩ := exists_status_of_after hafter
      have hi' := lt_of_status hown
      rw [if_neg hi] at hstatus
      rw [if_neg (by omega)] at hdep
      exact h.behind i d status dep hafter hstatus hdep
  case waits =>
    intro i hpending
    rw [status_submit] at hpending
    rw [after_submit]
    split at hpending
    case isTrue hi =>
      split at hpending
      case isTrue hheld =>
        rw [if_pos hi]
        exact ⟨hheld.1, Option.isSome_iff_exists.mp hheld.2⟩
      case isFalse => simp at hpending
    case isFalse hi =>
      rw [if_neg hi]
      exact h.waits i hpending

/-- What a step does to the queue, as the job at `index` changes from `status` to `next`. -/
inductive QueueChange (index : ℕ) : JobStatus → JobStatus → List ℕ → List ℕ → Prop
  | kept {status next : JobStatus} {queue : List ℕ} (before : status ≠ .queued)
      (now : next ≠ .queued) : QueueChange index status next queue queue
  | joined {queue : List ℕ} : QueueChange index .pending .queued queue (queue ++ [index])
  | left {queue : List ℕ} : QueueChange index .queued .running (index :: queue) queue

theorem Move.changes {threads : ℕ} {holds : Bool} {p p' : Pool α} {a : PoolAction}
    (h : Sound holds p) (move : Move threads p a p') :
    ∃ index status next queue, p.status index = some status ∧ status.Advances next ∧
      p' = ⟨setStatus p.jobs index next, queue⟩ ∧
      QueueChange index status next p.queue queue ∧
      ∀ d dep, p.after index = some d → p.status d = some dep → next.Follows holds dep := by
  have hstatus {index : ℕ} {j : Job α} {status : JobStatus} (hj : p.jobs[index]? = some j)
      (hs : j.status = status) : p.status index = some status := by
    simp [Pool.status, hj, hs]
  have hafter {index d : ℕ} {j : Job α} (hj : p.jobs[index]? = some j)
      (hd : p.after index = some d) : j.after = some d := by
    simpa [after, hj] using hd
  cases move with
  | launched index j waiting pending ended =>
      refine ⟨index, .pending, .queued, _, hstatus waiting pending, .launched, rfl, .joined, ?_⟩
      intro d dep hd hdep
      rw [hafter waiting hd, Option.bind_some, hdep] at ended
      obtain rfl := Option.some.inj ended
      exact ⟨by decide, fun _ => rfl⟩
  | dropped index j waiting pending ended =>
      exact ⟨index, .pending, .failed, _, hstatus waiting pending, .dropped, rfl,
        .kept (by decide) (by decide), fun _ _ _ _ => trivial⟩
  | started index rest first idle =>
      have hqueued : p.status index = some .queued := (h.queued index).mp (by simp [first])
      refine ⟨index, .queued, .running, _, hqueued, .started, rfl, first ▸ .left, ?_⟩
      intro d dep hd hdep
      obtain ⟨hpending, hheld⟩ := h.behind index d _ dep hd hqueued hdep
      refine ⟨hpending, ?_, hheld⟩
      -- a queued dependency would stand behind its dependent in the queue
      rintro rfl
      have hmem := (h.queued d).mpr hdep
      have hfifo := h.fifo
      rw [first] at hmem hfifo
      rcases List.mem_cons.mp hmem with rfl | hrest
      · exact Nat.lt_irrefl _ (h.earlier _ _ hd)
      · exact List.rel_of_pairwise_cons hfifo hrest hd
  | returned index j picked running ended =>
      refine ⟨index, .running, .done, _, hstatus picked running, .returned, rfl,
        .kept (by decide) (by decide), ?_⟩
      intro d dep hd hdep
      have := ended d (hafter picked hd)
      rw [hdep] at this
      exact Option.some.inj this
  | raised index j picked running =>
      exact ⟨index, .running, .failed, _, hstatus picked running, .raised, rfl,
        .kept (by decide) (by decide), fun _ _ _ _ => trivial⟩

theorem QueueChange.nodup {index : ℕ} {status next : JobStatus} {queue queue' : List ℕ}
    (change : QueueChange index status next queue queue') (once : queue.Nodup)
    (hpending : status = .pending → index ∉ queue) : queue'.Nodup := by
  cases change with
  | kept => exact once
  | joined => exact once.append (List.nodup_singleton _) (by simpa using hpending rfl)
  | left => exact once.of_cons

theorem QueueChange.mem_iff {index : ℕ} {status next : JobStatus} {queue queue' : List ℕ}
    (change : QueueChange index status next queue queue') (once : queue.Nodup)
    (hindex : index ∈ queue ↔ status = .queued) (i : ℕ) :
    i ∈ queue' ↔ if i = index then next = .queued else i ∈ queue := by
  cases change with
  | kept before now =>
      split
      case isTrue hi => simp [hi, hindex, before, now]
      case isFalse => rfl
  | joined => split <;> simp_all
  | left =>
      split
      case isTrue hi => simpa [hi] using (List.nodup_cons.mp once).1
      case isFalse hi => simp [hi]

theorem Sound.move {threads : ℕ} {holds : Bool} {p p' : Pool α} {a : PoolAction} (h : Sound holds p)
    (move : Move threads p a p') : Sound holds p' := by
  obtain ⟨index, status, next, queue, hindex, advances, rfl, change, hnext⟩ := move.changes h
  have hkeep (k : ℕ) : (⟨setStatus p.jobs index next, queue⟩ : Pool α).status k =
      if k = index then some next else p.status k :=
    status_setStatus p queue index k next hindex
  constructor
  case earlier => simpa using h.earlier
  case queued =>
    intro i
    rw [hkeep]
    have hmem : index ∈ p.queue ↔ status = .queued := by
      rw [h.queued, hindex, Option.some.injEq]
    rw [change.mem_iff h.once hmem]
    split
    case isTrue => rw [Option.some.injEq]
    case isFalse => exact h.queued i
  case once =>
    refine change.nodup h.once fun hpending hmem => ?_
    rw [h.queued, hindex, hpending] at hmem
    contradiction
  case fifo =>
    simp only [after_setStatus]
    have hfifo := h.fifo
    have hmem := h.queued
    generalize p.queue = before at change hfifo hmem
    cases change with
    | kept => exact hfifo
    | left => exact hfifo.of_cons
    | joined =>
        refine List.pairwise_append.mpr ⟨hfifo, List.pairwise_singleton _ _, ?_⟩
        intro i hi k hk hafter
        rw [List.mem_singleton.mp hk] at hafter
        exact (h.behind i index _ _ hafter ((hmem i).mp hi) hindex).1 rfl
  case behind =>
    intro i d own dep hafter hown hdep
    rw [after_setStatus] at hafter
    rw [hkeep] at hown hdep
    have hlt := h.earlier i d hafter
    by_cases hi : i = index
    · subst hi
      rw [if_pos rfl, Option.some.injEq] at hown
      rw [if_neg (Nat.ne_of_lt hlt)] at hdep
      exact hown ▸ hnext d dep hafter hdep
    · rw [if_neg hi] at hown
      by_cases hd : d = index
      · rw [if_pos hd, Option.some.injEq] at hdep
        exact hdep ▸ (h.behind i d own status hafter hown (hd ▸ hindex)).advances advances
      · rw [if_neg hd] at hdep
        exact h.behind i d own dep hafter hown hdep
  case waits =>
    intro i hpending
    rw [hkeep] at hpending
    rw [after_setStatus]
    split at hpending
    case isTrue =>
      cases advances <;> contradiction
    case isFalse => exact h.waits i hpending

theorem Move.jobs_map {threads : ℕ} {holds : Bool} {p p' : Pool α} {a : PoolAction}
    (h : Sound holds p) (move : Move threads p a p') {β : Type*} (f : Job α → β)
    (hf : ∀ j status, f { j with status } = f j) : p'.jobs.map f = p.jobs.map f := by
  obtain ⟨index, status, next, queue, -, -, rfl, -⟩ := move.changes h
  exact map_setStatus f hf p.jobs index next

theorem Move.getElem?_jobs {threads : ℕ} {holds : Bool} {p p' : Pool α} {a : PoolAction}
    (h : Sound holds p) (move : Move threads p a p') (k : ℕ) :
    ∃ change : Job α → JobStatus,
      p'.jobs[k]? = p.jobs[k]?.map (fun j => { j with status := change j }) ∧
      ∀ j, p.jobs[k]? = some j → j.status.finished = true → change j = j.status := by
  obtain ⟨index, status, next, queue, hindex, advances, rfl, -⟩ := move.changes h
  refine ⟨fun j => if index = k then next else j.status, ?_, ?_⟩
  · rw [getElem?_setStatus]
    congr 1
    funext j
    split <;> rfl
  · intro j hj hfinished
    refine if_neg ?_
    rintro rfl
    obtain ⟨j', hj', rfl⟩ := Option.map_eq_some_iff.mp hindex
    obtain rfl : j = j' := Option.some.inj (hj.symm.trans hj')
    rw [advances.not_finished] at hfinished
    contradiction

theorem Move.exists_job {threads : ℕ} {holds : Bool} {p p' : Pool α} {a : PoolAction}
    (h : Sound holds p) (move : Move threads p a p') {k : ℕ} {j' : Job α}
    (hj' : p'.jobs[k]? = some j') :
    ∃ j, p.jobs[k]? = some j ∧ j'.app = j.app ∧ j'.after = j.after ∧
      (j.status.finished = true → j'.status = j.status) := by
  obtain ⟨change, hchange, hkept⟩ := move.getElem?_jobs h k
  rw [hchange] at hj'
  obtain ⟨j, hj, rfl⟩ := Option.map_eq_some_iff.mp hj'
  exact ⟨j, hj, rfl, rfl, hkept j hj⟩

theorem Move.job {threads : ℕ} {holds : Bool} {p p' : Pool α} {a : PoolAction}
    (h : Sound holds p) (move : Move threads p a p') {k : ℕ} {j : Job α}
    (hj : p.jobs[k]? = some j) :
    ∃ j', p'.jobs[k]? = some j' ∧ j'.app = j.app ∧ j'.after = j.after ∧
      (j.status.finished = true → j'.status = j.status) := by
  obtain ⟨change, hchange, hkept⟩ := move.getElem?_jobs h k
  exact ⟨{ j with status := change j }, by simp [hchange, hj], rfl, rfl, hkept j hj⟩

theorem Move.status_finished {threads : ℕ} {holds : Bool} {p p' : Pool α} {a : PoolAction}
    (h : Sound holds p) (move : Move threads p a p') {k : ℕ} {status : JobStatus}
    (hk : p.status k = some status) (hfinished : status.finished = true) :
    p'.status k = some status := by
  obtain ⟨j, hj, rfl⟩ := Option.map_eq_some_iff.mp hk
  obtain ⟨j', hj', -, -, hkept⟩ := move.job h hj
  simp [Pool.status, hj', hkept hfinished]

theorem Move.finish_of_done {threads : ℕ} {p p' : Pool α} {a : PoolAction}
    (move : Move threads p a p') {k : ℕ} {j j' : Job α} (hj : p.jobs[k]? = some j)
    (hbefore : j.status ≠ .done) (hj' : p'.jobs[k]? = some j') (hdone : j'.status = .done) :
    a = .finish k true := by
  have hchanged {index : ℕ} {next : JobStatus} (hset : p'.jobs = setStatus p.jobs index next) :
      index = k ∧ next = .done := by
    rw [hset, getElem?_setStatus, hj, Option.map_some, Option.some.injEq] at hj'
    subst hj'
    by_cases hk : index = k
    · simp only [hk, if_true] at hdone
      exact ⟨hk, hdone⟩
    · simp only [hk, if_false] at hdone
      exact absurd hdone hbefore
  cases move with
  | returned index => rw [(hchanged rfl).1]
  | launched => exact absurd (hchanged rfl).2 (by decide)
  | dropped => exact absurd (hchanged rfl).2 (by decide)
  | started => exact absurd (hchanged rfl).2 (by decide)
  | raised => exact absurd (hchanged rfl).2 (by decide)

/-! ## The pool is never stuck -/

theorem exists_finish (threads : ℕ) {holds : Bool} {p : Pool α} (h : Sound holds p) {i : ℕ}
    (hrunning : p.status i = some .running) (hleast : ∀ k < i, p.status k ≠ some .running) :
    ∃ returned p', step threads p (.finish i returned) = some p' := by
  obtain ⟨j, hj, hstatus⟩ := Option.map_eq_some_iff.mp hrunning
  cases hafter : j.after with
  | none =>
      exact ⟨true, ⟨setStatus p.jobs i .done, p.queue⟩,
        by simp [step, finishStep, hj, hstatus, admits, hafter]⟩
  | some d =>
      have hd : p.after i = some d := by simp [after, hj, hafter]
      have hlt := h.earlier i d hd
      obtain ⟨dep, hdep⟩ : ∃ dep, p.status d = some dep := by
        cases hdep : p.status d with
        | some dep => exact ⟨dep, rfl⟩
        | none =>
            have := lt_of_status hrunning
            simp [Pool.status] at hdep
            omega
      have hfollows := h.behind i d _ dep hd hrunning hdep
      cases dep with
      | pending => exact absurd rfl hfollows.1
      | queued => exact absurd rfl hfollows.2.1
      | running => exact absurd hdep (hleast d hlt)
      | done =>
          exact ⟨true, ⟨setStatus p.jobs i .done, p.queue⟩,
            by simp [step, finishStep, hj, hstatus, admits, hafter, hdep]⟩
      | failed =>
          exact ⟨false, ⟨setStatus p.jobs i .failed, p.queue⟩,
            by simp [step, finishStep, hj, hstatus, admits, hafter, hdep]⟩

theorem exists_resolve (threads : ℕ) {holds : Bool} {p : Pool α} (h : Sound holds p) {i : ℕ}
    (hpending : p.status i = some .pending)
    (hleast : ∀ k < i, ∀ status, p.status k = some status → status.finished = true) :
    ∃ p', step threads p (.resolve i) = some p' := by
  obtain ⟨j, hj, hstatus⟩ := Option.map_eq_some_iff.mp hpending
  obtain ⟨-, d, hd⟩ := h.waits i hpending
  have hafter : j.after = some d := by simpa [after, hj] using hd
  have hlt := h.earlier i d hd
  cases hdep : p.status d with
  | none =>
      have := lt_of_status hpending
      simp [Pool.status] at hdep
      omega
  | some dep =>
      have hfinished := hleast d hlt dep hdep
      cases dep with
      | done => exact ⟨_, by simp [step, resolveStep, hj, hstatus, hafter, hdep]; rfl⟩
      | failed => exact ⟨_, by simp [step, resolveStep, hj, hstatus, hafter, hdep]; rfl⟩
      | _ => contradiction

/--
The first running job can finish, as its dependency left the queue before it; if
none runs, the first queued job can start or the first one held back can go on.
-/
theorem Sound.progress {threads : ℕ} {holds : Bool} {p : Pool α} (h : Sound holds p)
    (hthreads : 0 < threads) {i : ℕ} {status : JobStatus} (hi : p.status i = some status)
    (hunfinished : status.finished = false) : ∃ a p', step threads p a = some p' := by
  by_cases hrunning : ∃ k, p.status k = some .running
  case pos =>
    classical
    obtain ⟨returned, p', hp'⟩ := exists_finish threads h (Nat.find_spec hrunning)
      fun k hk => Nat.find_min hrunning hk
    exact ⟨_, p', hp'⟩
  case neg =>
    cases hqueue : p.queue with
    | cons first rest =>
        have hidle : p.runningCount = 0 := by
          refine List.countP_eq_zero.mpr fun j hj hstatus => hrunning ?_
          obtain ⟨k, hk⟩ := List.mem_iff_getElem?.mp hj
          exact ⟨k, by simpa [Pool.status, hk] using hstatus⟩
        exact ⟨.start, _, by simp only [step, startStep, hqueue, hidle, hthreads, if_true]; rfl⟩
    | nil =>
        have hpending : ∀ k status, p.status k = some status → status.finished = false →
            status = .pending := by
          intro k status hk hfinished
          cases status with
          | pending => rfl
          | queued => simpa [hqueue] using (h.queued k).mpr hk
          | running => exact absurd ⟨k, hk⟩ hrunning
          | _ => contradiction
        have hexists : ∃ k, p.status k = some .pending :=
          ⟨i, hpending i status hi hunfinished ▸ hi⟩
        classical
        obtain ⟨p', hp'⟩ := exists_resolve threads h (Nat.find_spec hexists) (by
          intro k hk status hstatus
          by_contra hfinished
          exact Nat.find_min hexists hk
            (hpending k status hstatus (by simpa using hfinished) ▸ hstatus))
        exact ⟨_, p', hp'⟩

/-! ## Every step brings the pool closer to its end -/

def outstanding (p : Pool α) : ℕ := (p.jobs.map fun j => j.status.outstanding).sum

theorem sum_setStatus (weight : JobStatus → ℕ) {jobs : List (Job α)} {index : ℕ} {j : Job α}
    (hj : jobs[index]? = some j) (next : JobStatus) :
    ((setStatus jobs index next).map fun j => weight j.status).sum + weight j.status =
      (jobs.map fun j => weight j.status).sum + weight next := by
  induction jobs generalizing index with
  | nil => simp at hj
  | cons first rest ih =>
      cases index with
      | zero =>
          obtain rfl : first = j := by simpa using hj
          simp only [setStatus, List.modify_zero_cons, List.map_cons, List.sum_cons]
          omega
      | succ index =>
          have := ih (by simpa using hj)
          simp only [setStatus, List.modify_succ_cons, List.map_cons, List.sum_cons] at this ⊢
          omega

theorem Move.outstanding_lt {threads : ℕ} {holds : Bool} {p p' : Pool α} {a : PoolAction}
    (h : Sound holds p) (move : Move threads p a p') : p'.outstanding < p.outstanding := by
  obtain ⟨index, status, next, queue, hindex, advances, rfl, -⟩ := move.changes h
  obtain ⟨j, hj, rfl⟩ := Option.map_eq_some_iff.mp hindex
  have := sum_setStatus JobStatus.outstanding hj next
  have := advances.outstanding_lt
  simp only [outstanding]
  omega

theorem outstanding_submit_le (holds : Bool) (p : Pool α) (app : α) (dependency : Option ℕ) :
    (p.submit holds app dependency).outstanding ≤ p.outstanding + 3 := by
  unfold submit
  split <;> simp [outstanding, JobStatus.outstanding]

theorem runningCount_eq_sum (p : Pool α) :
    p.runningCount = (p.jobs.map fun j => if j.status = .running then 1 else 0).sum := by
  unfold runningCount
  induction p.jobs with
  | nil => rfl
  | cons j jobs ih => simp [List.countP_cons, ih, Nat.add_comm]

theorem runningCount_setStatus_le {p : Pool α} {index : ℕ} {j : Job α}
    (hj : p.jobs[index]? = some j) (next : JobStatus) (queue : List ℕ) :
    (⟨setStatus p.jobs index next, queue⟩ : Pool α).runningCount ≤
      p.runningCount + if next = .running then 1 else 0 := by
  have := sum_setStatus (fun status => if status = .running then 1 else 0) hj next
  rw [runningCount_eq_sum, runningCount_eq_sum]
  dsimp only
  omega

theorem Move.runningCount_le {threads : ℕ} {holds : Bool} {p p' : Pool α} {a : PoolAction}
    (h : Sound holds p) (move : Move threads p a p') (hle : p.runningCount ≤ threads) :
    p'.runningCount ≤ threads := by
  cases move with
  | started index rest first idle =>
      obtain ⟨j, hj, -⟩ := Option.map_eq_some_iff.mp ((h.queued index).mp (by simp [first]))
      have := runningCount_setStatus_le hj .running rest
      simp only [if_true] at this
      omega
  | launched index j waiting => exact Nat.le_trans (runningCount_setStatus_le waiting .queued _) hle
  | dropped index j waiting => exact Nat.le_trans (runningCount_setStatus_le waiting .failed _) hle
  | returned index j picked => exact Nat.le_trans (runningCount_setStatus_le picked .done _) hle
  | raised index j picked => exact Nat.le_trans (runningCount_setStatus_le picked .failed _) hle

end Pool

end TdvfFuzz.Foundation
