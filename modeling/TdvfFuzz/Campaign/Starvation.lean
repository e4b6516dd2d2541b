import TdvfFuzz.Campaign.Dependencies

/-!
# A campaign waits for its jobs only

The main thread blocks in a `result()` or polls; in both cases some job of the
pool can go on, so a campaign without an end starves its pool.
-/

namespace TdvfFuzz.Campaign.Pipeline

open TdvfFuzz.Foundation

section

variable {holds : Bool} {args : Args} {pipeline : List Item}

/-! ## Some step is always enabled -/

variable (args pipeline) in
theorem exists_pool_step {threads : ℕ} {s : State} (h : Staged holds threads s)
    (hthreads : 0 < args.pipes) {i : ℕ} {status : JobStatus} (hi : s.pool.status i = some status)
    (hunfinished : status.finished = false) (copied : ℕ) :
    ∃ a s', step holds args pipeline s (.pool a copied) = some s' := by
  obtain ⟨a, pool, hpool⟩ := h.sound.progress hthreads hi hunfinished
  exact ⟨a, _, by simp only [step, hpool]; rfl⟩

theorem Staged.progress {threads : ℕ} {s : State} (h : Staged holds threads s)
    (hlinked : Linked pipeline s) (hthreads : 0 < args.pipes) (hraised : s.raised = false)
    (hfinished : s.stage ≠ .finished) : ∃ a s', step holds args pipeline s a = some s' := by
  have hmain {s' : State} (hs' : mainStep holds args pipeline s = some s') :
      ∃ a s', step holds args pipeline s a = some s' :=
    ⟨.main, s', by simpa [step, hraised] using hs'⟩
  cases stage : s.stage with
  | results phase next =>
      cases future : (s.tasks phase)[next]? with
      | none => exact hmain (by simp only [mainStep, stage, resultStep, future]; rfl)
      | some task =>
          obtain ⟨j, hj, -⟩ := h.known phase task (List.mem_of_getElem? future)
          have hstatus : s.pool.status task = some j.status := by simp [Pool.status, hj]
          cases hj' : j.status with
          | done =>
              exact hmain (by simp only [mainStep, stage, resultStep, future, hstatus, hj']; rfl)
          | failed =>
              exact hmain (by simp only [mainStep, stage, resultStep, future, hstatus, hj']; rfl)
          | _ =>
              obtain ⟨a, s', hs'⟩ :=
                exists_pool_step args pipeline h hthreads hstatus (by rw [hj']; rfl) 0
              exact ⟨_, s', hs'⟩
  | guard =>
      by_cases hended : s.fuzzQueue = [] ∨ s.pipes = ∅
      · exact hmain (by simp only [mainStep, stage, hended, if_true]; rfl)
      · obtain ⟨hqueue, hpipes⟩ := not_or.mp hended
        obtain ⟨pipeId, hfree⟩ := Finset.nonempty_iff_ne_empty.mpr hpipes
        exact ⟨.submit pipeId, _, by
          simp only [step, hraised, stage, submitStep, List.getLast?_eq_some_getLast hqueue, hfree,
            and_self, if_true]
          rfl⟩
  | smatch next waitTask =>
      obtain ⟨p, -, hp, -⟩ := hlinked.waitTask next waitTask stage
      exact hmain (by simp only [mainStep, stage, smatchStep, hp]; rfl)
  | finished => exact absurd stage hfinished
  | _ => exact hmain (by simp only [mainStep, stage]; rfl)

/-! ## Every step but a poll brings the campaign closer to its end -/

/-- The steps of `while not pipes:`. -/
inductive Polls (s : State) : State → Prop
  | slept (stage : s.stage = .wait) (none : s.pipes = ∅) : Polls s { s with stage := .scan 0 }
  | scanned (index : ℕ) (stage : s.stage = .scan index) (future : s.fuzzTasks[index]? = none) :
      Polls s { s with stage := .wait }
  | polled (index task : ℕ) (stage : s.stage = .scan index)
      (future : s.fuzzTasks[index]? = some task) (done : s.pool.status task = some .done) :
      Polls s { s with
        pipes := s.pipes ∪ (s.pool.jobs[task]?.bind fun j => j.app.result).toFinset
        stage := .scan (index + 1) }
  | passed (index task : ℕ) (stage : s.stage = .scan index)
      (future : s.fuzzTasks[index]? = some task)
      (undone : ∀ status, s.pool.status task = some status → status.finished = false) :
      Polls s { s with stage := .scan (index + 1) }

def State.awaiting (s : State) (phase : Phase) (next : ℕ) : ℕ := (s.tasks phase).length - next + 1

/--
How much is left to the main thread, where submitting a job counts for what the
job still has to go through.
-/
def State.left (entries : ℕ) (s : State) : ℕ :=
  let summary := s.smatcherTasks.length + 6
  let triage := s.traceTasks.length + 6 + summary
  let trace := entries * 10 + 1 + triage
  let loop := s.fuzzTasks.length + trace
  match s.stage with
  | .finished => 0
  | .results .smatcher next => s.awaiting .smatcher next
  | .smatcher => summary
  | .results .trace next => s.awaiting .trace next + summary
  | .triage => triage
  | .trace next => (entries - next) * 10 + 1 + triage
  | .smatch next _ => (entries - next) * 10 - 4 + triage
  | .results .fuzz next => s.awaiting .fuzz next + trace
  | .guard => 6 * s.fuzzQueue.length + 2 + loop
  | .wait | .scan _ => 6 * s.fuzzQueue.length + 3 + loop
  | .pipes => 6 * entries + 3 + loop
  | .results .build next => s.awaiting .build next + (6 * entries + 3 + loop)
  | .build next => (entries - next) * 5 + s.buildTasks.length + 2 + (6 * entries + 3 + loop)

def State.outstanding (entries : ℕ) (s : State) : ℕ :=
  s.pool.outstanding + s.left entries + if s.raised then 0 else 1

theorem outstanding_submit_lt {entries : ℕ} {s s' : State} {app : App} {after : Option ℕ}
    (hpool : s'.pool = s.pool.submit holds app after) (hraised : s'.raised = s.raised)
    (hleft : s'.left entries + 3 < s.left entries) :
    s'.outstanding entries < s.outstanding entries := by
  have := s.pool.outstanding_submit_le holds app after
  simp only [State.outstanding, hpool, hraised]
  omega

theorem outstanding_turn_lt {entries : ℕ} {s s' : State} (hpool : s'.pool = s.pool)
    (hraised : s'.raised = s.raised) (hleft : s'.left entries < s.left entries) :
    s'.outstanding entries < s.outstanding entries := by
  simp only [State.outstanding, hpool, hraised]
  omega

theorem left_results (entries : ℕ) {s : State} {phase : Phase} {next : ℕ}
    (stage : s.stage = .results phase next) :
    s.left entries = s.awaiting phase next + { s with stage := phase.following }.left entries := by
  cases phase <;> simp [State.left, stage, Phase.following]

theorem Move.lt_or_polls {s s' : State} {a : Action} (hstaged : Staged holds args.pipes s)
    (move : Move holds args pipeline s a s') (hraised : a = .main → s.raised = false) :
    s'.outstanding pipeline.length < s.outstanding pipeline.length ∨ a = .main ∧ Polls s s' := by
  have hlt {next : ℕ} {p : Item} (item : pipeline[next]? = some p) : next < pipeline.length :=
    (List.getElem?_eq_some_iff.mp item).1
  cases move with
  | slept stage none => exact .inr ⟨rfl, .slept stage none⟩
  | scanned index stage future => exact .inr ⟨rfl, .scanned index stage future⟩
  | polled index task stage future done => exact .inr ⟨rfl, .polled index task stage future done⟩
  | passed index task stage future undone =>
      exact .inr ⟨rfl, .passed index task stage future undone⟩
  | built next p stage item =>
      refine .inl (outstanding_submit_lt rfl rfl ?_)
      have := hlt item
      simp only [State.left, stage, List.length_append, List.length_singleton]
      omega
  | builtAll next stage item =>
      refine .inl (outstanding_turn_lt rfl rfl ?_)
      simp only [State.left, stage, State.awaiting, State.tasks]
      omega
  | returned phase next task stage future done =>
      refine .inl (outstanding_turn_lt rfl rfl ?_)
      have := (List.getElem?_eq_some_iff.mp future).1
      rw [left_results _ stage, left_results _ rfl]
      change (s.tasks phase).length - (next + 1) + 1 +
        { s with stage := phase.following }.left pipeline.length < _
      simp only [State.awaiting]
      omega
  | ended phase next stage future =>
      refine .inl (outstanding_turn_lt rfl rfl ?_)
      rw [left_results _ stage]
      simp only [State.awaiting]
      omega
  | raised task failed =>
      left
      have hleft : { s with raised := true }.left pipeline.length = s.left pipeline.length := rfl
      simp only [State.outstanding, hleft, hraised rfl]
      simp
  | arranged stage =>
      refine .inl (outstanding_turn_lt rfl rfl ?_)
      simp only [State.left, stage]
      omega
  | left stage ended =>
      refine .inl (outstanding_turn_lt rfl rfl ?_)
      simp only [State.left, stage, State.awaiting, State.tasks]
      omega
  | resumed stage some =>
      refine .inl (outstanding_turn_lt rfl rfl ?_)
      simp only [State.left, stage]
      omega
  | traced next p stage item =>
      refine .inl (outstanding_submit_lt rfl rfl ?_)
      have := hlt item
      simp only [State.left, stage, List.length_append, List.length_singleton]
      omega
  | tracedAll next stage item =>
      refine .inl (outstanding_turn_lt rfl rfl ?_)
      simp only [State.left, stage]
      omega
  | matched next waitTask p stage item =>
      refine .inl (outstanding_submit_lt rfl rfl ?_)
      have := hlt item
      simp only [State.left, stage, List.length_append, List.length_singleton]
      omega
  | triaged stage =>
      refine .inl (outstanding_submit_lt rfl rfl ?_)
      simp only [State.left, stage, State.awaiting, State.tasks, List.length_append,
        List.length_singleton]
      omega
  | summarized stage =>
      refine .inl (outstanding_submit_lt rfl rfl ?_)
      simp only [State.left, stage, State.awaiting, State.tasks, List.length_append,
        List.length_singleton]
      omega
  | submitted p pipeId stage last free =>
      refine .inl (outstanding_submit_lt rfl rfl ?_)
      have hne : s.fuzzQueue ≠ [] := by
        rintro hnil
        simp [hnil] at last
      have := List.length_pos_iff.mpr hne
      simp only [State.left, stage, List.length_append, List.length_singleton,
        List.length_dropLast]
      omega
  | pooled a copied pool move =>
      left
      have := move.outstanding_lt hstaged.sound
      have hleft : { s with pool, targets := written args s a copied }.left pipeline.length =
          s.left pipeline.length := rfl
      simp only [State.outstanding, hleft]
      omega

/-! ## What polling sees -/

theorem Polls.frame {s s' : State} (h : Polls s s') :
    s'.pool = s.pool ∧ s'.fuzzTasks = s.fuzzTasks ∧ s.pipes ⊆ s'.pipes := by
  cases h with
  | polled => exact ⟨rfl, rfl, Finset.subset_union_left⟩
  | _ => exact ⟨rfl, rfl, subset_rfl⟩

theorem Polls.of_wait {s s' : State} (h : Polls s s') (hwait : s.stage = .wait) :
    s.pipes = ∅ ∧ s'.stage = .scan 0 := by
  cases h with
  | slept stage none => exact ⟨none, rfl⟩
  | scanned index stage => cases hwait.symm.trans stage
  | polled index task stage => cases hwait.symm.trans stage
  | passed index task stage => cases hwait.symm.trans stage

theorem Polls.of_scan {s s' : State} {index : ℕ} (h : Polls s s') (hscan : s.stage = .scan index) :
    (s.fuzzTasks[index]? = none ∧ s'.stage = .wait) ∨
      ∃ task, s.fuzzTasks[index]? = some task ∧ s'.stage = .scan (index + 1) ∧
        ((∀ status, s.pool.status task = some status → status.finished = false) ∨
          s'.pipes = s.pipes ∪ (s.pool.jobs[task]?.bind fun j => j.app.result).toFinset) := by
  cases h with
  | slept stage => cases hscan.symm.trans stage
  | scanned index stage future =>
      cases hscan.symm.trans stage
      exact .inl ⟨future, rfl⟩
  | polled index task stage future done =>
      cases hscan.symm.trans stage
      exact .inr ⟨task, future, rfl, .inr rfl⟩
  | passed index task stage future undone =>
      cases hscan.symm.trans stage
      exact .inr ⟨task, future, rfl, .inl undone⟩

theorem Polls.stage {s s' : State} (h : Polls s s') :
    s.stage = .wait ∨ ∃ index, s.stage = .scan index := by
  cases h with
  | slept stage => exact .inl stage
  | scanned index stage => exact .inr ⟨index, stage⟩
  | polled index task stage => exact .inr ⟨index, stage⟩
  | passed index task stage => exact .inr ⟨index, stage⟩

/-- The waiting loop is entered with a job submitted. -/
theorem reachable_submitted {targets : Finset (String × String)} {s : State}
    (h : (runCampaign holds args pipeline targets).Reachable s)
    (hstage : s.stage = .wait ∨ ∃ index, s.stage = .scan index) : s.fuzzTasks ≠ [] := by
  refine Machine.Reachable.invariant
    (P := fun s => s.stage = .wait ∨ (∃ index, s.stage = .scan index) → s.fuzzTasks ≠ [])
    (by simp [runCampaign]) ?_ h hstage
  intro s a s' hs hstep hstage'
  have hold (hbefore : s.stage = .wait ∨ ∃ index, s.stage = .scan index)
      (htasks : s'.fuzzTasks = s.fuzzTasks) : s'.fuzzTasks ≠ [] := htasks ▸ hs hbefore
  cases step_move hstep with
  | submitted => simp
  | raised | pooled => exact hs hstage'
  | slept stage => exact hold (.inl stage) rfl
  | scanned index stage => exact hold (.inr ⟨index, stage⟩) rfl
  | polled index task stage => exact hold (.inr ⟨index, stage⟩) rfl
  | passed index task stage => exact hold (.inr ⟨index, stage⟩) rfl
  | ended phase => cases phase <;> simp [Phase.following] at hstage'
  | _ => simp at hstage'

section

variable {targets : Finset (String × String)}
  (e : (runCampaign holds args pipeline targets).Execution)

theorem main_of_step {s s' : State} (h : step holds args pipeline s .main = some s') :
    s.raised = false := by
  simp only [step] at h
  split at h
  case isTrue => contradiction
  case isFalse hraised => simpa using hraised

theorem exists_polls : ∃ k, ∀ j, k ≤ j →
    e.action j = .main ∧ Polls (e.state j) (e.state (j + 1)) := by
  have hmove (j : ℕ) : (e.state (j + 1)).outstanding pipeline.length <
        (e.state j).outstanding pipeline.length ∨
      e.action j = .main ∧ Polls (e.state j) (e.state (j + 1)) :=
    (step_move (e.steps j)).lt_or_polls (reachable_staged (e.reachable j)) fun hmain =>
      main_of_step (hmain ▸ e.steps j)
  have hpolls {s s' : State} (h : Polls s s') :
      s'.outstanding pipeline.length = s.outstanding pipeline.length := by
    cases h with
    | slept stage none => simp [State.outstanding, State.left, stage]
    | scanned index stage future => simp [State.outstanding, State.left, stage]
    | polled index task stage future done => simp [State.outstanding, State.left, stage]
    | passed index task stage future undone => simp [State.outstanding, State.left, stage]
  obtain ⟨k, hk⟩ := e.eventually_constant (State.outstanding pipeline.length) fun j => by
    rcases hmove j with hlt | ⟨-, h⟩
    · exact hlt.le
    · exact (hpolls h).le
  refine ⟨k, fun j hj => (hmove j).resolve_left ?_⟩
  have := hk j hj
  have := hk (j + 1) (by omega)
  omega

variable {e} {k : ℕ} (hpolls : ∀ j, k ≤ j → Polls (e.state j) (e.state (j + 1)))

include hpolls

theorem polls_frame {j j' : ℕ} (hj : k ≤ j) (hj' : j ≤ j') :
    (e.state j').pool = (e.state j).pool ∧ (e.state j').fuzzTasks = (e.state j).fuzzTasks ∧
      (e.state j).pipes ⊆ (e.state j').pipes := by
  induction j', hj' using Nat.le_induction with
  | base => exact ⟨rfl, rfl, subset_rfl⟩
  | succ j' hle ih =>
      obtain ⟨hpool, htasks, hpipes⟩ := (hpolls j' (by omega)).frame
      exact ⟨hpool.trans ih.1, htasks.trans ih.2.1, ih.2.2.trans hpipes⟩

theorem exists_wait {j : ℕ} (hj : k ≤ j) : ∃ j', j ≤ j' ∧ (e.state j').stage = .wait := by
  rcases (hpolls j hj).stage with hwait | ⟨index, hscan⟩
  · exact ⟨j, le_rfl, hwait⟩
  · -- the scan comes to the end of the list
    obtain ⟨rest, hrest⟩ : ∃ rest, rest = (e.state j).fuzzTasks.length - index := ⟨_, rfl⟩
    induction rest generalizing j index with
    | zero =>
        rcases (hpolls j hj).of_scan hscan with ⟨-, hwait⟩ | ⟨task, htask, -⟩
        · exact ⟨j + 1, by omega, hwait⟩
        · have := (List.getElem?_eq_some_iff.mp htask).1
          omega
    | succ rest ih =>
        rcases (hpolls j hj).of_scan hscan with ⟨-, hwait⟩ | ⟨task, htask, hnext, -⟩
        · exact ⟨j + 1, by omega, hwait⟩
        · obtain ⟨j', hj', hwait⟩ := ih (j := j + 1) (by omega) (index + 1) hnext
            (by rw [(polls_frame hpolls hj (by omega)).2.1]; omega)
          exact ⟨j', by omega, hwait⟩

/-- If every job had finished, the first future would raise or give its pipe back. -/
theorem exists_unfinished :
    ∃ i status, (e.state k).pool.status i = some status ∧ status.finished = false := by
  by_contra hall
  push Not at hall
  obtain ⟨wait, hwait, hstage⟩ := exists_wait hpolls le_rfl
  obtain ⟨-, hscan⟩ := (hpolls wait hwait).of_wait hstage
  have hsubmitted := reachable_submitted (e.reachable (wait + 1)) (.inr ⟨0, hscan⟩)
  have hpool := (polls_frame hpolls le_rfl (by omega : k ≤ wait + 1)).1
  rcases (hpolls (wait + 1) (by omega)).of_scan hscan with ⟨hnone, -⟩ | ⟨task, htask, -, hvisit⟩
  · have hempty := Nat.le_zero.mp (List.getElem?_eq_none_iff.mp hnone)
    exact hsubmitted (List.length_eq_zero_iff.mp hempty)
  · obtain ⟨j, hj, hphase⟩ := (reachable_staged (e.reachable (wait + 1))).known .fuzz task
      (List.mem_of_getElem? htask)
    have hstatus : (e.state (wait + 1)).pool.status task = some j.status := by
      simp [Pool.status, hj]
    rcases hvisit with hundone | hgiven
    · exact hall task j.status (hpool ▸ hstatus) (hundone j.status hstatus)
    · have hresult : ∃ id, j.app.result = some id := by
        cases happ : j.app with
        | fuzz p pipeId => exact ⟨pipeId, rfl⟩
        | _ => simp [happ, App.phase] at hphase
      obtain ⟨id, hid⟩ := hresult
      have hfree : id ∈ (e.state (wait + 2)).pipes := by
        rw [hgiven, hj, Option.bind_some, hid]
        simp
      obtain ⟨again, hagain, hstage'⟩ := exists_wait hpolls (by omega : k ≤ wait + 2)
      have hnone := ((hpolls again (by omega)).of_wait hstage').1
      have := (polls_frame hpolls (by omega) hagain).2.2 hfree
      simp [hnone] at this

end

end

/--
A campaign is never deadlocked, also when matching jobs occupy threads to wait
for their traces.  One without an end only polls from some point on, while its
pool could go on but does not.
-/
theorem campaign_waits_for_its_jobs (holds : Bool) (args : Args) (pipeline : List Item)
    (targets : Finset (String × String)) (hpipes : 0 < args.pipes) :
    let campaign := runCampaign holds args pipeline targets
    (∀ s, campaign.Reachable s →
      s.stage = .finished ∨ s.raised = true ∨ ∃ a s', campaign.step s a = some s') ∧
    ∀ e : campaign.Execution, ∃ k, ∀ j, k ≤ j →
      e.action j = .main ∧ (e.state j).pool = (e.state k).pool ∧
        ∃ a s', campaign.step (e.state j) (.pool a 0) = some s' := by
  intro campaign
  constructor
  · intro s hs
    by_cases hfinished : s.stage = .finished
    · exact .inl hfinished
    · by_cases hraised : s.raised = true
      · exact .inr (.inl hraised)
      · exact .inr (.inr ((reachable_staged hs).progress (reachable_linked hs) hpipes
          (by simpa using hraised) hfinished))
  · intro e
    obtain ⟨k, hk⟩ := exists_polls e
    have hpolls : ∀ j, k ≤ j → Polls (e.state j) (e.state (j + 1)) := fun j hj => (hk j hj).2
    obtain ⟨i, status, hi, hunfinished⟩ := exists_unfinished hpolls
    refine ⟨k, fun j hj => ?_⟩
    have hpool := (polls_frame hpolls le_rfl hj).1
    have hstaged := reachable_staged (e.reachable j)
    exact ⟨(hk j hj).1, hpool,
      exists_pool_step args pipeline hstaged hpipes (hpool ▸ hi) hunfinished 0⟩

/-- A trace and the matching job that waits for it occupy both threads. -/
theorem campaign_waits_for_its_jobs_pair :
    ∃ s, (pairCampaign false).Reachable s ∧ s.stage = .results .trace 0 ∧
      s.pool.jobs.map Job.status = [.done, .done, .done, .done, .running, .running, .queued,
        .queued, .queued] ∧
      ∃ a s', (pairCampaign false).step s a = some s' := by
  have hrun : ((pairCampaign false).run (pairCampaign false).init
      (tracingSchedule ++ [.pool .start 0, .pool .start 0])).map
        (fun s => (s.stage, s.raised, s.pool.jobs.map Job.status)) =
          some (.results .trace 0, false, [.done, .done, .done, .done, .running, .running, .queued,
            .queued, .queued]) := by
    decide +kernel
  obtain ⟨s, hs, hfields⟩ := Option.map_eq_some_iff.mp hrun
  obtain ⟨hstage, hraised, hstatus⟩ : s.stage = .results .trace 0 ∧ s.raised = false ∧
      s.pool.jobs.map Job.status = _ := by
    simpa using hfields
  have hreach := (Machine.Reachable.init _).run _ hs
  have hwaits := (campaign_waits_for_its_jobs false ⟨2, false⟩ [acpiHarness, pciHarness] ∅
    (by decide)).1 s hreach
  exact ⟨s, hreach, hstage, hstatus,
    (hwaits.resolve_left (by simp [hstage])).resolve_left (by simp [hraised])⟩

end TdvfFuzz.Campaign.Pipeline
