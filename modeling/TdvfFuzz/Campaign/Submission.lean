import Mathlib.Algebra.Order.Ring.Int
import Mathlib.Tactic.Linarith
import TdvfFuzz.Campaign.Scheduler

/-!
# Every harness is fuzzed

The loop ends with an empty queue only, and does not end only if a job never
does.  The pipes that `main` arranges fit the CPUs.
-/

namespace TdvfFuzz.Campaign

open TdvfFuzz.Foundation

/-! ## The arrangement of the CPUs -/

structure Args where
  ncpu : ℤ
  workers : ℤ
  pipes : ℤ
  threads : ℤ
  deriving DecidableEq, Repr

/-- For few CPUs, use single pipes and all available cores. -/
def Args.share (args : Args) : Args :=
  if args.ncpu < args.workers then
    { args with pipes := 1, workers := args.ncpu, threads := 2 * args.ncpu }
  else
    { args with
      pipes := max 1 ((args.ncpu - 2).fdiv args.workers), threads := 2 * args.workers }

/-- If we don't need so many pipes, scale up the threads. -/
def Args.scale (args : Args) (harnessDirs : ℕ) : Args :=
  if args.pipes > harnessDirs then
    { args with pipes := harnessDirs, threads := 2 * args.ncpu.fdiv harnessDirs }
  else args

def Args.arrange (args : Args) (harnessDirs : ℕ) : Args := args.share.scale harnessDirs

section

variable {args : Args}

theorem share_fits (hncpu : 1 ≤ args.ncpu) (hworkers : 1 ≤ args.workers) :
    1 ≤ args.share.pipes ∧ 1 ≤ args.share.workers ∧
      args.share.workers * args.share.pipes ≤ args.share.ncpu := by
  unfold Args.share
  split
  case isTrue h => simpa using hncpu
  case isFalse h =>
    refine ⟨le_max_left _ _, hworkers, ?_⟩
    have hdiv : args.workers * (args.ncpu - 2).fdiv args.workers ≤ args.ncpu - 2 := by
      rw [Int.fdiv_eq_ediv_of_nonneg _ (by omega)]
      exact Int.mul_ediv_self_le (by omega)
    rcases max_cases 1 ((args.ncpu - 2).fdiv args.workers) with ⟨hmax, -⟩ | ⟨hmax, -⟩
    · simp only [hmax, mul_one]
      omega
    · simp only [hmax]
      omega

theorem arrange_fits {harnessDirs : ℕ} (hncpu : 1 ≤ args.ncpu) (hworkers : 1 ≤ args.workers)
    (hharness : 1 ≤ harnessDirs) :
    1 ≤ (args.arrange harnessDirs).pipes ∧ (args.arrange harnessDirs).pipes ≤ harnessDirs ∧
      1 ≤ (args.arrange harnessDirs).workers ∧
      (args.arrange harnessDirs).workers * (args.arrange harnessDirs).pipes ≤ args.ncpu := by
  have hshare : args.share.ncpu = args.ncpu := by
    unfold Args.share
    split <;> rfl
  obtain ⟨hpipes, hpos, hfits⟩ := share_fits hncpu hworkers
  rw [hshare] at hfits
  unfold Args.arrange Args.scale
  split
  case isTrue h =>
    refine ⟨by simpa using hharness, le_refl _, hpos, ?_⟩
    have hnonneg : 0 ≤ args.share.workers := by omega
    exact (mul_le_mul_of_nonneg_left h.le hnonneg).trans hfits
  case isFalse h => exact ⟨hpipes, not_lt.mp h, hpos, hfits⟩

theorem mem_cpuWindow_lt {workers pipes ncpu : ℤ} (hfits : workers * pipes ≤ ncpu)
    {id cpu : ℕ} (hid : (id : ℤ) < pipes) (hcpu : cpu ∈ cpuWindow workers.toNat id) :
    (cpu : ℤ) < ncpu := by
  obtain ⟨-, hlt⟩ := hcpu
  by_cases hworkers : 0 ≤ workers
  · obtain ⟨workers, rfl⟩ := Int.eq_ofNat_of_zero_le hworkers
    rw [Int.toNat_natCast] at hlt
    have hnext : (workers : ℤ) * (id + 1) ≤ workers * pipes :=
      mul_le_mul_of_nonneg_left (by omega) hworkers
    have : (cpu : ℤ) < workers * id + workers := by exact_mod_cast hlt
    linarith
  · rw [Int.toNat_of_nonpos (by omega)] at hlt
    omega

end

/-! ## The invariant of the loop -/

/--
Queue and jobs together are the pipeline, free and handed out ids are pipes, and
the guard sees a free pipe.
-/
structure LoopInv (pipes : ℕ) (pipeline : List Entry) (s : State) : Prop where
  entries : s.fuzzQueue ++ (s.fuzzTasks.map Task.entry).reverse = pipeline
  ids : ∀ t ∈ s.fuzzTasks, t.pipeId < pipes
  free : ∀ id ∈ s.pipes, id < pipes
  guarded : s.pc = .guard → s.pipes ≠ ∅
  ended : s.pc = .drain ∨ s.pc = .finished → s.fuzzQueue = []
  scanning : ∀ index, s.pc = .scan index → index ≤ s.fuzzTasks.length
  submitted : s.pipes = ∅ → s.fuzzTasks ≠ []

theorem exists_setStatus {tasks : List Task} {index : ℕ} {status : TaskStatus} {t : Task}
    (h : t ∈ setStatus tasks index status) :
    ∃ t' ∈ tasks, t.entry = t'.entry ∧ t.pipeId = t'.pipeId := by
  induction tasks generalizing index with
  | nil => simp [setStatus] at h
  | cons first rest ih =>
      cases index with
      | zero =>
          rcases List.mem_cons.mp h with rfl | h
          · exact ⟨first, by simp, rfl, rfl⟩
          · exact ⟨t, by simp [h], rfl, rfl⟩
      | succ index =>
          rcases List.mem_cons.mp h with rfl | h
          · exact ⟨t, by simp, rfl, rfl⟩
          · obtain ⟨t', ht', hsame⟩ := ih h
            exact ⟨t', by simp [ht'], hsame⟩

theorem map_entry_setStatus (tasks : List Task) (index : ℕ) (status : TaskStatus) :
    (setStatus tasks index status).map Task.entry = tasks.map Task.entry := by
  induction tasks generalizing index with
  | nil => simp [setStatus]
  | cons first rest ih =>
      cases index with
      | zero => simp [setStatus]
      | succ index => simpa [setStatus] using ih index

theorem LoopInv.setStatus {pipes : ℕ} {pipeline : List Entry} {s : State}
    (h : LoopInv pipes pipeline s) (index : ℕ) (status : TaskStatus) :
    LoopInv pipes pipeline
      { s with fuzzTasks := Campaign.setStatus s.fuzzTasks index status } where
  entries := by simpa [map_entry_setStatus] using h.entries
  ids t ht := by
    obtain ⟨t', ht', -, hid⟩ := exists_setStatus ht
    exact hid ▸ h.ids t' ht'
  free := h.free
  guarded := h.guarded
  ended := h.ended
  scanning := by simpa [Campaign.setStatus] using h.scanning
  submitted hnone := by simpa [Campaign.setStatus] using h.submitted hnone

theorem LoopInv.move {pipes : ℕ} {pipeline : List Entry} {s s' : State} {a : Action}
    (h : LoopInv pipes pipeline s) (hmove : Move s a s') : LoopInv pipes pipeline s' := by
  cases hmove with
  | submitted p pipeId guard last free =>
      refine ⟨?_, ?_, ?_, by simp, by simp, by simp, by simp⟩
      · have hqueue : s.fuzzQueue.dropLast ++ [p] = s.fuzzQueue :=
          List.dropLast_append_getLast? p last
        rw [← h.entries, ← hqueue]
        simp
      · intro t ht
        rcases List.mem_append.mp ht with ht | ht
        · exact h.ids t ht
        · exact List.mem_singleton.mp ht ▸ h.free pipeId free
      · intro id hid
        exact h.free id (Finset.mem_of_mem_erase hid)
  | left guard ended =>
      have hempty : s.fuzzQueue = [] := ended.resolve_right (h.guarded guard)
      exact ⟨h.entries, h.ids, h.free, by simp, fun _ => hempty, by simp, h.submitted⟩
  | slept waiting none =>
      exact ⟨h.entries, h.ids, h.free, by simp, by simp, by simp, h.submitted⟩
  | resumed waiting some =>
      exact ⟨h.entries, h.ids, h.free, fun _ => some, by simp, by simp, h.submitted⟩
  | returned index t scanning visited done =>
      have hindex : index < s.fuzzTasks.length := (List.getElem?_eq_some_iff.mp visited).1
      refine ⟨h.entries, h.ids, ?_, by simp, by simp, ?_, by simp⟩
      · intro id hid
        rcases Finset.mem_insert.mp hid with rfl | hid
        · exact h.ids t (List.mem_of_getElem? visited)
        · exact h.free id hid
      · intro next hnext
        cases hnext
        exact hindex
  | passed index t scanning visited undone =>
      have hindex : index < s.fuzzTasks.length := (List.getElem?_eq_some_iff.mp visited).1
      refine ⟨h.entries, h.ids, h.free, by simp, by simp, ?_, h.submitted⟩
      intro next hnext
      cases hnext
      exact hindex
  | rescanned scanned =>
      exact ⟨h.entries, h.ids, h.free, by simp, by simp, by simp, h.submitted⟩
  | drained draining =>
      exact ⟨h.entries, h.ids, h.free, by simp, fun _ => h.ended (.inl draining), by simp,
        h.submitted⟩
  | started index t picked queued => exact h.setStatus index .running
  | finished index t picked running => exact h.setStatus index .done

theorem LoopInv.init {pipes : ℕ} (hpipes : 0 < pipes) (pipeline : List Entry) :
    LoopInv pipes pipeline (runCampaign pipes pipeline).init where
  entries := by simp [runCampaign]
  ids := by simp [runCampaign]
  free := by simp [runCampaign]
  guarded := by simpa [runCampaign] using hpipes.ne'
  ended := by simp [runCampaign]
  scanning := by simp [runCampaign]
  submitted := by simpa [runCampaign] using hpipes.ne'

theorem reachable_loopInv {pipes : ℕ} (hpipes : 0 < pipes) {pipeline : List Entry} {s : State}
    (h : (runCampaign pipes pipeline).Reachable s) : LoopInv pipes pipeline s :=
  h.invariant (LoopInv.init hpipes pipeline) fun _ _ _ hs hstep => hs.move (step_move hstep)

/-! ## The loop is never stuck -/

theorem exists_start {threads : ℕ} {s : State} {t : Task} (ht : t ∈ s.fuzzTasks)
    (hqueued : t.status = .queued) (hidle : runningCount s.fuzzTasks < threads) :
    ∃ s', startStep threads s = some s' := by
  unfold startStep
  split
  case h_1 hnone =>
    have := List.findIdx?_eq_none_iff.mp hnone t ht
    simp [hqueued] at this
  case h_2 index hfirst => exact ⟨_, if_pos hidle⟩

theorem exists_pool_step {threads : ℕ} (hthreads : 0 < threads) {s : State} {t : Task}
    (ht : t ∈ s.fuzzTasks) (hundone : t.status ≠ .done) :
    ∃ a s', step threads s a = some s' := by
  by_cases hrunning : ∃ t' ∈ s.fuzzTasks, t'.status = .running
  case pos =>
    obtain ⟨t', ht', hrunning⟩ := hrunning
    obtain ⟨index, hindex⟩ := List.mem_iff_getElem?.mp ht'
    exact ⟨.finish index, { s with fuzzTasks := setStatus s.fuzzTasks index .done },
      by simp [step, finishStep, hindex, hrunning]⟩
  case neg =>
    have hidle : runningCount s.fuzzTasks = 0 :=
      List.countP_eq_zero.mpr fun t' ht' => by
        simpa using fun h => hrunning ⟨t', ht', h⟩
    have hqueued : t.status = .queued := by
      cases hstatus : t.status with
      | queued => rfl
      | running => exact absurd ⟨t, ht, hstatus⟩ hrunning
      | done => exact absurd hstatus hundone
    obtain ⟨s', hs'⟩ := exists_start ht hqueued (hidle ▸ hthreads)
    exact ⟨.start, s', hs'⟩

theorem LoopInv.progress {pipes : ℕ} {pipeline : List Entry} {s : State}
    (h : LoopInv pipes pipeline s) (hpipes : 0 < pipes) (hfinished : s.pc ≠ .finished) :
    ∃ a s', step pipes s a = some s' := by
  cases hpc : s.pc with
  | guard =>
      by_cases hqueue : s.fuzzQueue = []
      · exact ⟨.leave, { s with pc := .drain }, by simp [step, hpc, hqueue]⟩
      · obtain ⟨pipeId, hfree⟩ := Finset.nonempty_iff_ne_empty.mpr (h.guarded hpc)
        refine ⟨.submit pipeId, ⟨s.fuzzQueue.dropLast, s.pipes.erase pipeId,
          s.fuzzTasks ++ [⟨s.fuzzQueue.getLast hqueue, pipeId, .queued⟩], .wait⟩, ?_⟩
        simp [step, submitStep, hpc, List.getLast?_eq_some_getLast hqueue, hfree]
  | wait =>
      by_cases hnone : s.pipes = ∅
      · exact ⟨.sleep, { s with pc := .scan 0 }, by simp [step, hpc, hnone]⟩
      · exact ⟨.resume, { s with pc := .guard }, by simp [step, hpc, hnone]⟩
  | scan index =>
      rcases (h.scanning index hpc).lt_or_eq with hlt | rfl
      · refine ⟨.poll, ?_⟩
        simp only [step, hpc, pollStep, List.getElem?_eq_getElem hlt]
        split <;> exact ⟨_, rfl⟩
      · exact ⟨.rescan, { s with pc := .wait }, by simp [step, hpc]⟩
  | drain =>
      by_cases hdone : ∀ t ∈ s.fuzzTasks, t.status = .done
      · exact ⟨.drained, { s with pc := .finished }, by simpa [step, hpc] using hdone⟩
      · push Not at hdone
        obtain ⟨t, ht, hundone⟩ := hdone
        exact exists_pool_step hpipes ht hundone
  | finished => contradiction

/-! ## The loop ends with its jobs -/

def Task.outstanding (t : Task) : ℕ :=
  match t.status with
  | .queued => 2
  | .running => 1
  | .done => 0

def Pc.outstanding : Pc → ℕ
  | .guard => 2
  | .wait => 3
  | .scan _ => 3
  | .drain => 1
  | .finished => 0

/-- A submission adds a queued job and enters the waiting loop. -/
def outstanding (s : State) : ℕ :=
  5 * s.fuzzQueue.length + (s.fuzzTasks.map Task.outstanding).sum + s.pc.outstanding

/-- The steps of `while not pipes:`. -/
def Action.polls : Action → Bool
  | .sleep => true
  | .poll => true
  | .rescan => true
  | _ => false

theorem sum_outstanding_setStatus {tasks : List Task} {index : ℕ} {t : Task}
    (ht : tasks[index]? = some t) (status : TaskStatus) :
    ((setStatus tasks index status).map Task.outstanding).sum + t.outstanding =
      (tasks.map Task.outstanding).sum + Task.outstanding { t with status } := by
  induction tasks generalizing index with
  | nil => simp at ht
  | cons first rest ih =>
      cases index with
      | zero =>
          obtain rfl : first = t := by simpa using ht
          simp only [setStatus, List.modify_zero_cons, List.map_cons, List.sum_cons]
          omega
      | succ index =>
          have := ih (by simpa using ht)
          simp only [setStatus, List.modify_succ_cons, List.map_cons, List.sum_cons] at this ⊢
          omega

theorem Move.outstanding_le {s s' : State} {a : Action} (h : Move s a s') :
    outstanding s' + (if a.polls then 0 else 1) ≤ outstanding s := by
  cases h with
  | submitted p pipeId guard last free =>
      have hne : s.fuzzQueue ≠ [] := by
        rintro hnil
        simp [hnil] at last
      have hlength : 0 < s.fuzzQueue.length := List.length_pos_iff.mpr hne
      simp only [outstanding, guard, Pc.outstanding, Action.polls, List.length_dropLast,
        List.map_append, List.sum_append, List.map_cons, List.map_nil, List.sum_cons,
        List.sum_nil, Task.outstanding, Bool.false_eq_true, if_false]
      omega
  | left guard ended => simp [outstanding, guard, Pc.outstanding, Action.polls]
  | slept waiting none => simp [outstanding, waiting, Pc.outstanding, Action.polls]
  | resumed waiting some => simp [outstanding, waiting, Pc.outstanding, Action.polls]
  | returned index t scanning visited done =>
      simp [outstanding, scanning, Pc.outstanding, Action.polls]
  | passed index t scanning visited undone =>
      simp [outstanding, scanning, Pc.outstanding, Action.polls]
  | rescanned scanned => simp [outstanding, scanned, Pc.outstanding, Action.polls]
  | drained draining => simp [outstanding, draining, Pc.outstanding, Action.polls]
  | started index t picked queued =>
      have hsum := sum_outstanding_setStatus picked .running
      simp only [Task.outstanding, queued] at hsum
      simp only [outstanding, Action.polls, Bool.false_eq_true, if_false]
      omega
  | finished index t picked running =>
      have hsum := sum_outstanding_setStatus picked .done
      simp only [Task.outstanding, running] at hsum
      simp only [outstanding, Action.polls, Bool.false_eq_true, if_false]
      omega

theorem Move.of_polls {s s' : State} {a : Action} (h : Move s a s') (hpolls : a.polls = true) :
    s'.fuzzTasks = s.fuzzTasks ∧ s.pipes ⊆ s'.pipes := by
  cases h with
  | returned => exact ⟨rfl, Finset.subset_insert _ _⟩
  | slept => exact ⟨rfl, subset_rfl⟩
  | passed => exact ⟨rfl, subset_rfl⟩
  | rescanned => exact ⟨rfl, subset_rfl⟩
  | _ => contradiction

theorem Move.polls_pc {s s' : State} {a : Action} (h : Move s a s') (hpolls : a.polls = true) :
    s.pc = .wait ∨ ∃ index, s.pc = .scan index ∧ index ≤ s.fuzzTasks.length := by
  cases h with
  | slept waiting none => exact .inl waiting
  | returned index t scanning visited done =>
      exact .inr ⟨index, scanning, (List.getElem?_eq_some_iff.mp visited).1.le⟩
  | passed index t scanning visited undone =>
      exact .inr ⟨index, scanning, (List.getElem?_eq_some_iff.mp visited).1.le⟩
  | rescanned scanned => exact .inr ⟨_, scanned, le_rfl⟩
  | _ => contradiction

theorem Move.of_wait {s s' : State} {a : Action} (h : Move s a s') (hpolls : a.polls = true)
    (hwait : s.pc = .wait) : s.pipes = ∅ ∧ s'.pc = .scan 0 := by
  cases h with
  | slept waiting none => exact ⟨none, rfl⟩
  | returned index t scanning => cases hwait.symm.trans scanning
  | passed index t scanning => cases hwait.symm.trans scanning
  | rescanned scanned => cases hwait.symm.trans scanned
  | _ => contradiction

theorem Move.of_scan {s s' : State} {a : Action} {index : ℕ} (h : Move s a s')
    (hpolls : a.polls = true) (hscan : s.pc = .scan index) :
    (∃ t, s.fuzzTasks[index]? = some t ∧ s'.pc = .scan (index + 1) ∧
      (t.status = .done → s'.pipes ≠ ∅)) ∨
    (index = s.fuzzTasks.length ∧ s'.pc = .wait) := by
  cases h with
  | slept waiting => cases hscan.symm.trans waiting
  | returned index t scanning visited done =>
      cases hscan.symm.trans scanning
      exact .inl ⟨t, visited, rfl, fun _ => Finset.insert_ne_empty _ _⟩
  | passed index t scanning visited undone =>
      cases hscan.symm.trans scanning
      exact .inl ⟨t, visited, rfl, fun hdone => absurd hdone undone⟩
  | rescanned scanned =>
      cases hscan.symm.trans scanned
      exact .inr ⟨rfl, rfl⟩
  | _ => contradiction

section

variable {pipes : ℕ} {pipeline : List Entry} (e : (runCampaign pipes pipeline).Execution)

theorem execution_move (k : ℕ) : Move (e.state k) (e.action k) (e.state (k + 1)) :=
  step_move (e.steps k)

theorem exists_polls : ∃ k, ∀ j, k ≤ j → (e.action j).polls = true := by
  obtain ⟨k, hk⟩ := e.eventually_constant outstanding fun k =>
    (Nat.le_add_right _ _).trans (execution_move e k).outstanding_le
  refine ⟨k, fun j hj => ?_⟩
  have hle := (execution_move e j).outstanding_le
  rw [hk j hj, hk (j + 1) (by omega)] at hle
  by_contra hpolls
  simp [hpolls] at hle

variable {e} {k : ℕ} (hpolls : ∀ j, k ≤ j → (e.action j).polls = true)

include hpolls

theorem polls_frame {j j' : ℕ} (hj : k ≤ j) (hj' : j ≤ j') :
    (e.state j').fuzzTasks = (e.state j).fuzzTasks ∧ (e.state j).pipes ⊆ (e.state j').pipes := by
  induction j', hj' using Nat.le_induction with
  | base => exact ⟨rfl, subset_rfl⟩
  | succ j' hle ih =>
      obtain ⟨htasks, hfree⟩ := (execution_move e j').of_polls (hpolls j' (by omega))
      exact ⟨htasks.trans ih.1, ih.2.trans hfree⟩

theorem exists_scan {j index index' : ℕ} (hj : k ≤ j) (hscan : (e.state j).pc = .scan index)
    (hle : index ≤ index') (hlength : index' ≤ (e.state j).fuzzTasks.length) :
    ∃ j', j ≤ j' ∧ (e.state j').pc = .scan index' := by
  induction index', hle using Nat.le_induction with
  | base => exact ⟨j, le_rfl, hscan⟩
  | succ index' hle ih =>
      obtain ⟨j', hj', hpc⟩ := ih (by omega)
      rcases (execution_move e j').of_scan (hpolls j' (by omega)) hpc with
        ⟨t, -, hnext, -⟩ | ⟨hend, -⟩
      · exact ⟨j' + 1, by omega, hnext⟩
      · rw [(polls_frame hpolls hj hj').1] at hend
        omega

theorem exists_wait {j : ℕ} (hj : k ≤ j) : ∃ j', j ≤ j' ∧ (e.state j').pc = .wait := by
  rcases (execution_move e j).polls_pc (hpolls j hj) with hwait | ⟨index, hscan, hindex⟩
  · exact ⟨j, le_rfl, hwait⟩
  · obtain ⟨j', hj', hpc⟩ := exists_scan hpolls hj hscan hindex le_rfl
    rcases (execution_move e j').of_scan (hpolls j' (by omega)) hpc with
      ⟨t, ht, -⟩ | ⟨-, hwait⟩
    · have := (List.getElem?_eq_some_iff.mp ht).1
      rw [(polls_frame hpolls hj hj').1] at this
      omega
    · exact ⟨j' + 1, by omega, hwait⟩

/-- A job that is done returns its pipe, so the loop would go on. -/
theorem polls_undone {t : Task} (ht : t ∈ (e.state k).fuzzTasks) : t.status ≠ .done := by
  intro hdone
  obtain ⟨index, hindex⟩ := List.mem_iff_getElem?.mp ht
  have hlength : index < (e.state k).fuzzTasks.length := (List.getElem?_eq_some_iff.mp hindex).1
  obtain ⟨wait, hwait, hpc⟩ := exists_wait hpolls le_rfl
  obtain ⟨-, hscan⟩ := (execution_move e wait).of_wait (hpolls wait hwait) hpc
  obtain ⟨visit, hvisit, hpc⟩ := exists_scan hpolls (by omega : k ≤ wait + 1) hscan
    (Nat.zero_le index) (by rw [(polls_frame hpolls le_rfl (by omega)).1]; omega)
  have hreturned : (e.state (visit + 1)).pipes ≠ ∅ := by
    rcases (execution_move e visit).of_scan (hpolls visit (by omega)) hpc with
      ⟨t', ht', -, hreturned⟩ | ⟨hend, -⟩
    · rw [(polls_frame hpolls le_rfl (by omega)).1, hindex, Option.some.injEq] at ht'
      exact hreturned (ht' ▸ hdone)
    · rw [(polls_frame hpolls le_rfl (by omega)).1] at hend
      omega
  obtain ⟨again, hagain, hpc⟩ := exists_wait hpolls (by omega : k ≤ visit + 1)
  obtain ⟨hnone, -⟩ := (execution_move e again).of_wait (hpolls again (by omega)) hpc
  have hfree := (polls_frame hpolls (by omega) hagain).2
  rw [hnone] at hfree
  exact hreturned (Finset.subset_empty.mp hfree)

theorem polls_tasks_ne_nil (hpipes : 0 < pipes) : (e.state k).fuzzTasks ≠ [] := by
  obtain ⟨wait, hwait, hpc⟩ := exists_wait hpolls le_rfl
  obtain ⟨hnone, -⟩ := (execution_move e wait).of_wait (hpolls wait hwait) hpc
  rw [← (polls_frame hpolls le_rfl hwait).1]
  exact (reachable_loopInv hpipes (e.reachable wait)).submitted hnone

end

/--
Every entry is submitted once, to pipes and CPUs that exist, and the loop goes
on as long as its jobs return.
-/
theorem campaign_submits (args : Args) (harnessDirs : ℕ) (pipeline : List Entry)
    (hncpu : 1 ≤ args.ncpu) (hworkers : 1 ≤ args.workers) (hharness : 1 ≤ harnessDirs) :
    let arranged := args.arrange harnessDirs
    let campaign := runCampaign arranged.pipes.toNat pipeline
    (1 ≤ arranged.pipes ∧ arranged.pipes ≤ harnessDirs) ∧
      (∀ s, campaign.Reachable s →
        s.fuzzQueue ++ (s.fuzzTasks.map Task.entry).reverse = pipeline ∧
        (s.pc = .drain ∨ s.pc = .finished → s.fuzzQueue = []) ∧
        (∀ t ∈ s.fuzzTasks, (t.pipeId : ℤ) < arranged.pipes ∧
          ∀ cpu ∈ cpuWindow arranged.workers.toNat t.pipeId, (cpu : ℤ) < args.ncpu) ∧
        (s.pc = .finished ∨ ∃ a s', campaign.step s a = some s')) ∧
      ∀ e : campaign.Execution, ∃ k, (e.state k).fuzzTasks ≠ [] ∧
        ∀ j, k ≤ j → (e.state j).fuzzTasks = (e.state k).fuzzTasks ∧
          ∀ t ∈ (e.state j).fuzzTasks, t.status ≠ .done := by
  intro arranged campaign
  obtain ⟨hone, hle, -, hfits⟩ : 1 ≤ arranged.pipes ∧ arranged.pipes ≤ harnessDirs ∧
      1 ≤ arranged.workers ∧ arranged.workers * arranged.pipes ≤ args.ncpu :=
    arrange_fits hncpu hworkers hharness
  have hpipes : 0 < arranged.pipes.toNat := by omega
  refine ⟨⟨hone, hle⟩, fun s hs => ?_, fun e => ?_⟩
  · have hinv : LoopInv arranged.pipes.toNat pipeline s := reachable_loopInv hpipes hs
    refine ⟨hinv.entries, hinv.ended, fun t ht => ?_, ?_⟩
    · have hid : (t.pipeId : ℤ) < arranged.pipes := by
        have := hinv.ids t ht
        omega
      exact ⟨hid, fun cpu hcpu => mem_cpuWindow_lt hfits hid hcpu⟩
    · exact or_iff_not_imp_left.mpr fun hfinished => hinv.progress hpipes hfinished
  · obtain ⟨k, hpolls⟩ := exists_polls e
    refine ⟨k, polls_tasks_ne_nil hpolls hpipes, fun j hj => ?_⟩
    exact ⟨(polls_frame hpolls le_rfl hj).1,
      fun t ht => polls_undone (fun i hi => hpolls i (hj.trans hi)) ht⟩

theorem campaign_submits_pair :
    ((1 : ℤ) ≤ 2 ∧ (2 : ℤ) ≤ (3 : ℕ)) ∧
      ∀ s, (runCampaign 2 [⟨"pci", "build/pci", "work/pci"⟩,
          ⟨"vmm", "build/vmm", "work/vmm"⟩]).Reachable s →
        s.pc = .drain ∨ s.pc = .finished → s.fuzzQueue = [] :=
  have submits := campaign_submits ⟨7, 2, 1, 1⟩ 3
    [⟨"pci", "build/pci", "work/pci"⟩, ⟨"vmm", "build/vmm", "work/vmm"⟩]
    (by decide) (by decide) (by decide)
  ⟨submits.1, fun s hs => (submits.2.1 s hs).2.1⟩

end TdvfFuzz.Campaign
