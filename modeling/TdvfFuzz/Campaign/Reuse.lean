import Mathlib.Order.Interval.Finset.Nat
import TdvfFuzz.Campaign.Exclusive

/-!
# Reusing a pipe id returns it while it is held

`fuzz_tasks` only grows, so the first finished job keeps returning its id in
every later scan.  As soon as one entry more than there are pipes is queued,
some schedule returns the reused id while the second job holds it.
-/

namespace TdvfFuzz.Campaign

open TdvfFuzz.Foundation

/-! ## Loading every pipe -/

structure Loaded (pipes count left : Nat) (s : State) : Prop where
  queue : s.fuzzQueue.length = left
  free : s.pipes = Finset.Ico count pipes
  ids : s.fuzzTasks.map Task.pipeId = List.range count
  waiting : ∀ t ∈ s.fuzzTasks, t.status = .queued

theorem submit_loaded {pipes count left : Nat} (pipeline : List Entry)
    {s : State} (h : Loaded pipes count (left + 1) s) (hlt : count < pipes)
    (guard : s.pc = .guard) :
    ∃ s', (runCampaign pipes pipeline).step s (.submit count) = some s' ∧
      Loaded pipes (count + 1) left s' ∧ s'.pc = .wait := by
  have hne : s.fuzzQueue ≠ [] := by
    rw [← List.length_pos_iff, h.queue]
    omega
  obtain ⟨p, hp⟩ := Option.isSome_iff_exists.mp (List.getLast?_isSome.mpr hne)
  have hfree : count ∈ s.pipes := by simp [h.free, hlt]
  refine ⟨_, by simp [runCampaign, step, submitStep, guard, hp, hfree]; rfl, ?_, rfl⟩
  constructor
  case queue => simp [h.queue]
  case free =>
    ext id
    simp only [h.free, Finset.mem_erase, Finset.mem_Ico]
    omega
  case ids => simp [h.ids, List.range_succ]
  case waiting =>
    intro t ht
    rcases List.mem_append.mp ht with ht | ht
    · exact h.waiting t ht
    · simp_all

theorem reach_loaded {pipes : Nat} {pipeline : List Entry} (hpos : 0 < pipes)
    (hlt : pipes < pipeline.length) (count : Nat) (hcount : count < pipes) :
    ∃ s, (runCampaign pipes pipeline).Reachable s ∧
      Loaded pipes (count + 1) (pipeline.length - (count + 1)) s ∧
      s.pc = .wait := by
  induction count with
  | zero =>
      have hinit : Loaded pipes 0 (pipeline.length - 1 + 1)
          (runCampaign pipes pipeline).init :=
        ⟨by simp [runCampaign]; omega, by ext; simp [runCampaign],
          by simp [runCampaign], by simp [runCampaign]⟩
      obtain ⟨s, hstep, hloaded, hpc⟩ := submit_loaded pipeline hinit hpos rfl
      exact ⟨s, (Machine.Reachable.init _).step hstep, hloaded, hpc⟩
  | succ count ih =>
      obtain ⟨s, hreach, hloaded, hpc⟩ := ih (by omega)
      have hsome : s.pipes ≠ ∅ := by
        rw [hloaded.free, ← Finset.nonempty_iff_ne_empty, Finset.nonempty_Ico]
        exact hcount
      have hresume : (runCampaign pipes pipeline).step s .resume =
          some { s with pc := .guard } := by
        simp [runCampaign, step, hpc, hsome]
      have hleft : pipeline.length - (count + 1) =
          pipeline.length - (count + 2) + 1 := by omega
      have hguard : Loaded pipes (count + 1) (pipeline.length - (count + 2) + 1)
          { s with pc := .guard } :=
        ⟨by rw [← hleft]; exact hloaded.queue, hloaded.free, hloaded.ids,
          hloaded.waiting⟩
      obtain ⟨s', hstep, hloaded', hpc'⟩ := submit_loaded pipeline hguard hcount rfl
      exact ⟨s', (hreach.step hresume).step hstep, hloaded', hpc'⟩

/-! ## The first job finishes and its id is handed out again -/

theorem reach_scan_queued {pipes : Nat} {pipeline : List Entry} {s : State}
    (hreach : (runCampaign pipes pipeline).Reachable s) {index : Nat}
    (hpc : s.pc = .scan index)
    (hwait : ∀ i (hi : i < s.fuzzTasks.length), index ≤ i →
      s.fuzzTasks[i].status ≠ .done) (more : Nat)
    (hmore : index + more ≤ s.fuzzTasks.length) :
    (runCampaign pipes pipeline).Reachable
      { s with pc := .scan (index + more) } := by
  induction more with
  | zero =>
      have : { s with pc := Pc.scan (index + 0) } = s := by simp [← hpc]
      rwa [this]
  | succ more ih =>
      apply (ih (by omega)).step (a := .poll)
      have hi : index + more < s.fuzzTasks.length := by omega
      simp only [runCampaign, step, pollStep, List.getElem?_eq_getElem hi]
      rw [if_neg (hwait _ hi (by omega)), Nat.add_assoc]

theorem Loaded.exists_first {pipes left : Nat} (hpos : 0 < pipes) {s : State}
    (h : Loaded pipes pipes left s) :
    ∃ entry rest, s.fuzzTasks = ⟨entry, 0, .queued⟩ :: rest ∧
      rest.length + 1 = pipes ∧ ∀ t ∈ rest, t.status = .queued := by
  have hlength : s.fuzzTasks.length = pipes := by
    simpa using congrArg List.length h.ids
  have hhead := congrArg List.head? h.ids
  have hwaiting := h.waiting
  cases htasks : s.fuzzTasks with
  | nil => simp [htasks] at hlength; omega
  | cons first rest =>
      obtain ⟨entry, id, status⟩ := first
      rw [htasks] at hlength hhead hwaiting
      obtain rfl : status = .queued := hwaiting _ List.mem_cons_self
      obtain rfl : id = 0 := by simpa [List.head?_range, hpos.ne'] using hhead
      exact ⟨entry, rest, rfl, hlength, fun t ht => hwaiting t (by simp [ht])⟩

/-- Every pipe was loaded, the first job finished and its id went to a second job. -/
theorem reach_reused {pipes : Nat} {pipeline : List Entry} (hpos : 0 < pipes)
    (hlt : pipes < pipeline.length) :
    ∃ s, (runCampaign pipes pipeline).Reachable s ∧ s.pc = .scan 0 ∧
      (∃ t, s.fuzzTasks[0]? = some t ∧ t.status = .done ∧ t.pipeId = 0) ∧
      0 ∈ holders s.fuzzTasks := by
  obtain ⟨s, hreach, hloaded, hpc⟩ :=
    reach_loaded hpos hlt (pipes - 1) (by omega)
  rw [Nat.sub_add_cancel hpos] at hloaded
  obtain ⟨entry, rest, htasks, hlength, hrest⟩ := hloaded.exists_first hpos
  obtain ⟨queue, free, tasks, pc⟩ := s
  have hqueue := hloaded.queue
  have hfree := hloaded.free
  simp only [Finset.Ico_self] at hqueue hfree hpc htasks
  subst hpc hfree htasks
  have hnone : runningCount (⟨entry, 0, .queued⟩ :: rest) = 0 := by
    rw [runningCount, List.countP_eq_zero]
    intro t ht
    rcases List.mem_cons.mp ht with rfl | ht
    · simp
    · simp [hrest t ht]
  -- the first job runs to its end while the scheduler sleeps
  have hdone : (runCampaign pipes pipeline).Reachable
      ⟨queue, ∅, ⟨entry, 0, .done⟩ :: rest, .scan 0⟩ := by
    apply hreach.run [.sleep, .start, .finish 0]
    simp [Machine.run, runCampaign, step, startStep, finishStep, hnone,
      hpos, List.findIdx?_cons, setStatus]
  -- the scan frees pipe 0 and passes over the other jobs
  have hfreed : (runCampaign pipes pipeline).Reachable
      ⟨queue, {0}, ⟨entry, 0, .done⟩ :: rest, .scan 1⟩ :=
    hdone.step (a := .poll) (by
      simp [runCampaign, step, pollStep, Task.result])
  have hscanned := reach_scan_queued hfreed rfl (by
    intro i hi hle
    cases i with
    | zero => omega
    | succ i =>
        simp only [List.getElem_cons_succ]
        simp [hrest _ (List.getElem_mem _)]) rest.length (by simp; omega)
  have hne : queue ≠ [] := by
    rw [← List.length_pos_iff, hqueue]
    omega
  obtain ⟨p, hp⟩ :=
    Option.isSome_iff_exists.mp (List.getLast?_isSome.mpr hne)
  have hagain : (runCampaign pipes pipeline).Reachable
      ⟨queue.dropLast, ∅,
        ⟨entry, 0, .done⟩ :: (rest ++ [⟨p, 0, .queued⟩]), .scan 0⟩ := by
    apply hscanned.run [.rescan, .resume, .submit 0, .sleep]
    simp [Machine.run, runCampaign, step, submitStep, hp, Nat.add_comm]
  exact ⟨_, hagain, rfl, ⟨_, rfl, rfl, rfl⟩, by simp [mem_holders]⟩

theorem exists_unsafe_of_lt {pipes : Nat} {pipeline : List Entry}
    (hpos : 0 < pipes) (hlt : pipes < pipeline.length) :
    ∃ s, (runCampaign pipes pipeline).Reachable s ∧ ¬ FreeUnheld s := by
  obtain ⟨s, hreach, hpc, ⟨t, ht, hdone, hid⟩, hheld⟩ :=
    reach_reused hpos hlt
  have hpoll : (runCampaign pipes pipeline).step s .poll =
      some { s with pipes := insert t.result s.pipes, pc := .scan 1 } := by
    simp [runCampaign, step, hpc, pollStep, ht, hdone]
  refine ⟨_, hreach.step hpoll, fun hfree => ?_⟩
  exact hfree 0 (by simp [Task.result, hid]) hheld

/-! ## The exact condition -/

theorem pipesSafe_iff (workers pipes : Nat) (pipeline : List Entry)
    (hpos : 0 < pipes) :
    (∀ s, (runCampaign pipes pipeline).ReachableBy VisitsUnheld s →
      PipesSafe workers s) ∧
    ((∀ s, (runCampaign pipes pipeline).Reachable s → PipesSafe workers s) ↔
      pipeline.length ≤ pipes) := by
  refine ⟨fun s h => pipesSafe_of_visitsUnheld workers h, ?_, ?_⟩
  · intro hsafe
    by_contra hlt
    obtain ⟨s, hreach, hunsafe⟩ := exists_unsafe_of_lt hpos (not_le.mp hlt)
    exact hunsafe (hsafe s hreach).2
  · intro hle s hreach
    exact pipesSafe_of_le workers hle hreach

def sampleEntry : Entry := ⟨"BPH_ACPI", "BPH_ACPI/target", "BPH_ACPI/workdir_1"⟩

def threeEntries : List Entry :=
  [sampleEntry, ⟨"BPH_PCI", "BPH_PCI/target", "BPH_PCI/workdir_1"⟩,
    ⟨"BPH_VIRTIO", "BPH_VIRTIO/target", "BPH_VIRTIO/workdir_1"⟩]

/-- Both jobs have ended when the scan returns their pipes. -/
def reuseSchedule : List Action :=
  [.submit 0, .resume, .submit 1, .start, .start, .finish 0, .finish 1, .sleep, .poll, .poll,
    .rescan, .resume, .submit 0, .start]

theorem pipesSafe_iff_three :
    (∃ s, (runCampaign 2 threeEntries).ReachableBy VisitsUnheld s ∧
      s.fuzzTasks.map (fun t => (t.pipeId, t.status)) = [(0, .done), (1, .done), (0, .running)] ∧
      PipesSafe 16 s) ∧
    ¬ ∀ s, (runCampaign 2 threeEntries).Reachable s → PipesSafe 16 s := by
  obtain ⟨hsafe, hiff⟩ := pipesSafe_iff 16 2 threeEntries (by decide)
  refine ⟨?_, fun h => absurd (hiff.mp h) (by decide)⟩
  obtain ⟨s, hrun, htasks⟩ : ∃ s, ((runCampaign 2 threeEntries).restrict VisitsUnheld).run
      (runCampaign 2 threeEntries).init reuseSchedule = some s ∧
      s.fuzzTasks.map (fun t => (t.pipeId, t.status)) =
        [(0, .done), (1, .done), (0, .running)] := ⟨_, rfl, by decide⟩
  have hreach := (Machine.Reachable.run (.init _) reuseSchedule hrun).of_restrict
  exact ⟨s, hreach, htasks, hsafe s hreach⟩

/--
Two pipes, four entries.  Pipe 0 is returned by the finished first job while
the third job runs on it, and the fourth job starts on it too.
-/
def overlapSchedule : List Action :=
  [.submit 0, .resume, .submit 1, .start, .start, .sleep, .finish 0, .poll,
   .poll, .rescan, .resume, .submit 0, .start, .sleep, .poll, .poll, .poll,
   .rescan, .resume, .submit 0, .finish 1, .start]

theorem overlap_reachable :
    ∃ s, (runCampaign 2 (List.replicate 4 sampleEntry)).Reachable s ∧
      s.fuzzTasks.map (fun t => (t.pipeId, t.status)) =
        [(0, .done), (1, .done), (0, .running), (0, .running)] ∧
      ¬ Exclusive 16 s := by
  have hrun : ∃ s, (runCampaign 2 (List.replicate 4 sampleEntry)).run
      (runCampaign 2 (List.replicate 4 sampleEntry)).init overlapSchedule =
        some s ∧
      s.fuzzTasks = [⟨sampleEntry, 0, .done⟩, ⟨sampleEntry, 1, .done⟩,
        ⟨sampleEntry, 0, .running⟩, ⟨sampleEntry, 0, .running⟩] :=
    ⟨_, rfl, rfl⟩
  obtain ⟨s, hs, htasks⟩ := hrun
  refine ⟨s, (Machine.Reachable.init _).run _ hs, by simp [htasks], ?_⟩
  intro hexclusive
  rw [Exclusive, htasks] at hexclusive
  simp at hexclusive

end TdvfFuzz.Campaign
