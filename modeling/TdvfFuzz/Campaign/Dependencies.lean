import TdvfFuzz.Campaign.Plan

/-!
# What the jobs of a campaign rely on

Awaiting every list of futures makes the stages follow each other, and the
`AppFuture` of a trace orders the match after it.  A failed job is never
passed over.
-/

namespace TdvfFuzz.Campaign.Pipeline

open TdvfFuzz.Foundation

section

variable {holds : Bool} {args : Args} {pipeline : List Item}

/-! ## What the jobs depend on and leave behind -/

/-- Every `task_smatch` depends on its `task_trace`, and a finished build is complete. -/
structure Linked (pipeline : List Item) (s : State) : Prop where
  smatch : ∀ (i : ℕ) (j : Job App) (p : Item), s.pool.jobs[i]? = some j → j.app = .smatch p →
    ∃ d dep, j.after = some d ∧ s.pool.jobs[d]? = some dep ∧ dep.app = .trace p
  waitTask : ∀ next task, s.stage = .smatch next task → ∃ p dep,
    pipeline[next]? = some p ∧ s.pool.jobs[task]? = some dep ∧ dep.app = .trace p
  copied : ∀ (i : ℕ) (j : Job App) (p : Item), s.pool.jobs[i]? = some j → j.app = .build p →
    j.status = .done → allExist s.targets p.targetDir targetFiles = true

theorem Linked.init (targets : Finset (String × String)) :
    Linked pipeline (runCampaign holds args pipeline targets).init := by
  constructor <;> simp [runCampaign, Pool.empty]

theorem Linked.turn {s s' : State} (h : Linked pipeline s) (hpool : s'.pool = s.pool)
    (htargets : s'.targets = s.targets) (hstage : ∀ next task, s'.stage ≠ .smatch next task) :
    Linked pipeline s' where
  smatch := hpool ▸ h.smatch
  waitTask := fun next task hsmatch => absurd hsmatch (hstage next task)
  copied := by rw [hpool, htargets]; exact h.copied

theorem Linked.submit {s s' : State} {app : App} {after : Option ℕ} (h : Linked pipeline s)
    (hpool : s'.pool = s.pool.submit holds app after) (htargets : s'.targets = s.targets)
    (hafter : ∀ p, app = .smatch p →
      ∃ d dep, after = some d ∧ s.pool.jobs[d]? = some dep ∧ dep.app = .trace p)
    (hstage : ∀ next task, s'.stage = .smatch next task →
      task = s.pool.jobs.length ∧ ∃ p, pipeline[next]? = some p ∧ app = .trace p) :
    Linked pipeline s' := by
  obtain ⟨status, hjobs⟩ := s.pool.exists_jobs_submit holds app after
  rw [← hpool] at hjobs
  have hkeep {d : ℕ} {dep : Job App} (hd : s.pool.jobs[d]? = some dep) :
      s'.pool.jobs[d]? = some dep := by
    rw [hjobs, List.getElem?_append_left (List.getElem?_eq_some_iff.mp hd).1, hd]
  have hnew : s'.pool.status s.pool.jobs.length ≠ some .done := by
    rw [hpool, Pool.status_submit, if_pos rfl]
    split <;> simp
  constructor
  case smatch =>
    intro i j p hj happ
    rw [hjobs, Pool.getElem?_concat_jobs] at hj
    split at hj
    case isTrue =>
      obtain rfl := Option.some.inj hj
      obtain ⟨d, dep, hd, hdep, htrace⟩ := hafter p happ
      exact ⟨d, dep, hd, hkeep hdep, htrace⟩
    case isFalse =>
      obtain ⟨d, dep, hd, hdep, htrace⟩ := h.smatch i j p hj happ
      exact ⟨d, dep, hd, hkeep hdep, htrace⟩
  case waitTask =>
    intro next task hsmatch
    obtain ⟨rfl, p, hp, happ⟩ := hstage next task hsmatch
    exact ⟨p, _, hp, by rw [hjobs]; exact List.getElem?_concat_length, happ⟩
  case copied =>
    intro i j p hj happ hdone
    rw [htargets]
    by_cases hi : i = s.pool.jobs.length
    · refine absurd ?_ hnew
      rw [← hi]
      simp [Pool.status, hj, hdone]
    · rw [hjobs, Pool.getElem?_concat_jobs, if_neg hi] at hj
      exact h.copied i j p hj happ hdone

theorem allExist_mono {targets targets' : Finset (String × String)} (hsub : targets ⊆ targets')
    {dir : String} {files : List String} (h : allExist targets dir files = true) :
    allExist targets' dir files = true := by
  simp only [allExist, List.all_eq_true, decide_eq_true_eq] at h ⊢
  exact fun f hf => hsub (h f hf)

theorem allExist_taskBuild (rebuild : Bool) (targets : Finset (String × String)) (p : Item) :
    allExist (taskBuild rebuild targets p targetFiles) p.targetDir targetFiles = true := by
  unfold taskBuild
  split
  case isTrue hskip => exact (Bool.and_eq_true_iff.mp hskip).2
  case isFalse =>
    simp only [allExist, List.all_eq_true, decide_eq_true_eq]
    intro f hf
    refine Finset.mem_union_right _ (List.mem_toFinset.mpr (List.mem_flatMap.mpr ⟨f, hf, ?_⟩))
    exact List.mem_cons_self

theorem subset_written (args : Args) (s : State) (a : PoolAction) (copied : ℕ) :
    s.targets ⊆ written args s a copied := by
  unfold written taskBuild
  split
  case h_1 =>
    split
    case h_1 => split <;> simp
    case h_2 => exact subset_rfl
  case h_2 => exact subset_rfl

theorem Linked.pooled {s : State} (h : Linked pipeline s) (hstaged : Staged holds args.pipes s)
    {a : PoolAction} {copied : ℕ} {pool : Pool App}
    (move : Pool.Move args.pipes s.pool a pool) :
    Linked pipeline { s with pool, targets := written args s a copied } := by
  constructor
  case smatch =>
    intro i j' p hj' happ
    obtain ⟨j, hj, hsame, hafter, -⟩ := move.exists_job hstaged.sound hj'
    obtain ⟨d, dep, hd, hdep, htrace⟩ := h.smatch i j p hj (hsame ▸ happ)
    obtain ⟨dep', hdep', hdepapp, -⟩ := move.job hstaged.sound hdep
    exact ⟨d, dep', hafter.trans hd, hdep', hdepapp.trans htrace⟩
  case waitTask =>
    intro next task hstage
    obtain ⟨p, dep, hp, hdep, htrace⟩ := h.waitTask next task hstage
    obtain ⟨dep', hdep', hdepapp, -⟩ := move.job hstaged.sound hdep
    exact ⟨p, dep', hp, hdep', hdepapp.trans htrace⟩
  case copied =>
    intro i j' p hj' happ hdone
    obtain ⟨j, hj, hsame, -, -⟩ := move.exists_job hstaged.sound hj'
    by_cases hbefore : j.status = .done
    · exact allExist_mono (subset_written args s a copied)
        (h.copied i j p hj (hsame ▸ happ) hbefore)
    · obtain rfl : a = .finish i true := move.finish_of_done hj hbefore hj' hdone
      have hfinished : s.pool.jobs[i]?.map Job.app = some (.build p) := by
        simp [hj, ← hsame, happ]
      simp only [written, hfinished, if_true]
      exact allExist_taskBuild _ _ _

theorem Linked.move {s s' : State} {a : Action} (hstaged : Staged holds args.pipes s)
    (h : Linked pipeline s) (move : Move holds args pipeline s a s') : Linked pipeline s' := by
  cases move with
  | built | triaged | summarized | submitted => exact h.submit rfl rfl (by simp) (by simp)
  | traced next p stage item =>
      refine h.submit rfl rfl (by simp) fun next' task hsmatch => ?_
      obtain ⟨rfl, rfl⟩ := Stage.smatch.inj hsmatch
      exact ⟨rfl, p, item, rfl⟩
  | matched next waitTask p stage item =>
      refine h.submit rfl rfl ?_ (by simp)
      rintro p' happ
      obtain rfl := App.smatch.inj happ
      obtain ⟨p'', dep, hp, hdep, htrace⟩ := h.waitTask next waitTask stage
      obtain rfl : p = p'' := Option.some.inj (item.symm.trans hp)
      exact ⟨waitTask, dep, rfl, hdep, htrace⟩
  | pooled a copied pool move => exact h.pooled hstaged move
  | raised => exact ⟨h.smatch, h.waitTask, h.copied⟩
  | ended phase => exact h.turn rfl rfl (by cases phase <;> simp [Phase.following])
  | _ => exact h.turn rfl rfl (by simp)

theorem reachable_linked {targets : Finset (String × String)} {s : State}
    (h : (runCampaign holds args pipeline targets).Reachable s) : Linked pipeline s := by
  have hboth : Staged holds args.pipes s ∧ Linked pipeline s := by
    refine Machine.Reachable.invariant
      (P := fun s => Staged holds args.pipes s ∧ Linked pipeline s) ?_ ?_ h
    · exact ⟨reachable_staged (Machine.Reachable.init _), Linked.init targets⟩
    · rintro s a s' ⟨hstaged, hs⟩ hstep
      exact ⟨hstaged.move (step_move hstep), hs.move hstaged (step_move hstep)⟩
  exact hboth.2

end

/-! ## No stage overtakes another -/

/--
Whatever the schedule, a job finds every job of an earlier stage returned, a
harness is fuzzed only when its build is complete, and coverage is matched only
after the trace of its own directory.
-/
theorem stages_never_overlap (holds : Bool) (args : Args) (pipeline : List Item)
    (targets : Finset (String × String)) (hpipes : 0 < args.pipes) {s : State}
    (h : (runCampaign holds args pipeline targets).Reachable s) :
    (∀ x ∈ s.pool.jobs, ∀ y ∈ s.pool.jobs, x.app.phase.rank < y.app.phase.rank →
      x.status = .done) ∧
    (∀ y ∈ s.pool.jobs, ∀ p pipeId, y.app = .fuzz p pipeId →
      allExist s.targets p.targetDir targetFiles = true) ∧
    (∀ y ∈ s.pool.jobs, ∀ p, y.app = .smatch p →
      y.status = .done ∨ (holds = true ∧ y.status = .running) →
      ∃ x ∈ s.pool.jobs, x.app = .trace p ∧ x.status = .done) ∧
    s.pool.runningCount ≤ args.pipes := by
  obtain ⟨hstaged, hhistory⟩ := reachable_history hpipes h
  have hlinked := reachable_linked h
  have hsettled {x y : Job App} (hx : x ∈ s.pool.jobs) (hy : y ∈ s.pool.jobs)
      (hlt : x.app.phase.rank < y.app.phase.rank) : x.status = .done := by
    obtain ⟨i, hi⟩ := List.mem_iff_getElem?.mp hx
    obtain ⟨k, hk⟩ := List.mem_iff_getElem?.mp hy
    exact hstaged.settled i x hi (hlt.trans_le (hstaged.reached k y hk))
  refine ⟨fun x hx y hy hlt => hsettled hx hy hlt, ?_, ?_, hstaged.fits⟩
  · intro y hy p pipeId happ
    have hmem : (p, pipeId) ∈ s.handed :=
      List.mem_filterMap.mpr ⟨y.app, List.mem_map_of_mem hy, by simp [happ, App.handed]⟩
    have hitem : p ∈ pipeline := by
      obtain ⟨rest, hrest, -⟩ := hhistory.exists_rest
      rw [← List.mem_reverse, hrest]
      exact List.mem_append_left _ (List.mem_map_of_mem (f := Prod.fst) hmem)
    have hbuild : App.build p ∈ s.apps := by
      rw [hhistory.apps, Stage.apps, List.append_assoc]
      refine List.mem_append_left _ (List.mem_map_of_mem ?_)
      rcases hhistory.builds_eq with hbuilds | ⟨hnone, -⟩
      · exact hbuilds.symm ▸ hitem
      · simp [hnone] at hmem
    obtain ⟨x, hx, hxapp⟩ := List.mem_map.mp hbuild
    have hdone := hsettled hx hy (by rw [hxapp, happ]; exact Nat.zero_lt_one)
    obtain ⟨i, hi⟩ := List.mem_iff_getElem?.mp hx
    exact hlinked.copied i x p hi hxapp hdone
  · intro y hy p happ hended
    obtain ⟨i, hi⟩ := List.mem_iff_getElem?.mp hy
    obtain ⟨d, dep, hd, hdep, htrace⟩ := hlinked.smatch i y p hi happ
    refine ⟨dep, List.mem_of_getElem? hdep, htrace, ?_⟩
    have hfollows := hstaged.sound.behind i d y.status dep.status (by simp [Pool.after, hi, hd])
      (by simp [Pool.status, hi]) (by simp [Pool.status, hdep])
    rcases hended with hdone | ⟨hholds, hrunning⟩
    · rw [hdone] at hfollows
      exact hfollows
    · rw [hrunning] at hfollows
      exact hfollows.2.2 hholds

theorem stages_never_overlap_pair :
    ∃ s, (pairCampaign true).Reachable s ∧
      s.pool.jobs.map Job.status = [.done, .done, .running, .running] ∧
      allExist s.targets "BOOT_ACPI/target" targetFiles = true ∧
      allExist s.targets "BOOT_PCI/target" targetFiles = true ∧ s.pool.runningCount ≤ 2 := by
  obtain ⟨s, hs, hjobs⟩ := fuzzingSchedule_fuzzes
  obtain ⟨-, hbuilt, -, hcount⟩ :=
    stages_never_overlap true ⟨2, false⟩ [acpiHarness, pciHarness] ∅ (by decide) hs
  have hfuzzed : ∀ p pipeId, (App.fuzz p pipeId, JobStatus.running) ∈
      s.pool.jobs.map (fun j => (j.app, j.status)) →
      allExist s.targets p.targetDir targetFiles = true := by
    intro p pipeId hmem
    obtain ⟨y, hy, hpair⟩ := List.mem_map.mp hmem
    exact hbuilt y hy p pipeId (congrArg Prod.fst hpair)
  rw [hjobs] at hfuzzed
  refine ⟨s, hs, ?_, hfuzzed acpiHarness 1 (by decide), hfuzzed pciHarness 0 (by decide), hcount⟩
  simpa [Function.comp_def] using congrArg (List.map Prod.snd) hjobs

/-! ## A failed job is never lost -/

section

variable {holds : Bool} {args : Args} {pipeline : List Item}

theorem Move.jobs_finished {threads : ℕ} {s s' : State} {a : Action}
    (hstaged : Staged holds threads s) (move : Move holds args pipeline s a s') {i : ℕ}
    {j : Job App} (hj : s.pool.jobs[i]? = some j) (hfinished : j.status.finished = true) :
    ∃ j', s'.pool.jobs[i]? = some j' ∧ j'.app = j.app ∧ j'.status = j.status := by
  have hsubmit {app : App} {after : Option ℕ} : ∃ j',
      (s.pool.submit holds app after).jobs[i]? = some j' ∧ j'.app = j.app ∧
        j'.status = j.status := by
    obtain ⟨status, hjobs⟩ := s.pool.exists_jobs_submit holds app after
    refine ⟨j, ?_, rfl, rfl⟩
    rw [hjobs, List.getElem?_append_left (List.getElem?_eq_some_iff.mp hj).1, hj]
  cases move with
  | built | traced | matched | triaged | summarized | submitted => exact hsubmit
  | pooled a copied pool move =>
      obtain ⟨j', hj', happ, -, hkept⟩ := move.job hstaged.sound hj
      exact ⟨j', hj', happ, hkept hfinished⟩
  | _ => exact ⟨j, hj, rfl, rfl⟩

theorem run_jobs_finished {targets : Finset (String × String)} {s s' : State}
    {schedule : List Action} (h : (runCampaign holds args pipeline targets).Reachable s)
    (hrun : (runCampaign holds args pipeline targets).run s schedule = some s') {i : ℕ}
    {j : Job App} (hj : s.pool.jobs[i]? = some j) (hfinished : j.status.finished = true) :
    ∃ j', s'.pool.jobs[i]? = some j' ∧ j'.app = j.app ∧ j'.status = j.status := by
  induction schedule generalizing s j with
  | nil =>
      obtain rfl : s = s' := by simpa [Machine.run] using hrun
      exact ⟨j, hj, rfl, rfl⟩
  | cons a schedule ih =>
      simp only [Machine.run] at hrun
      obtain ⟨next, hnext, hrest⟩ := Option.bind_eq_some_iff.mp hrun
      obtain ⟨j₁, hj₁, happ, hstatus⟩ :=
        (step_move hnext).jobs_finished (reachable_staged h) hj hfinished
      obtain ⟨j', hj', happ', hstatus'⟩ := ih (h.step hnext) hrest hj₁ (hstatus ▸ hfinished)
      exact ⟨j', hj', happ'.trans happ, hstatus'.trans hstatus⟩

theorem reachable_raised {targets : Finset (String × String)} {s : State}
    (h : (runCampaign holds args pipeline targets).Reachable s) (hraised : s.raised = true) :
    ∃ i, s.pool.status i = some .failed := by
  have hboth : Staged holds args.pipes s ∧
      (s.raised = true → ∃ i, s.pool.status i = some .failed) := by
    refine Machine.Reachable.invariant (P := fun s => Staged holds args.pipes s ∧
      (s.raised = true → ∃ i, s.pool.status i = some .failed)) ?_ ?_ h
    · exact ⟨reachable_staged (Machine.Reachable.init _), by simp [runCampaign]⟩
    · rintro s a s' ⟨hstaged, hs⟩ hstep
      have move := step_move hstep
      refine ⟨hstaged.move move, fun hraised' => ?_⟩
      by_cases hbefore : s.raised = true
      · obtain ⟨i, hi⟩ := hs hbefore
        obtain ⟨j, hj, hfailed⟩ := Option.map_eq_some_iff.mp hi
        obtain ⟨j', hj', -, hstatus⟩ := move.jobs_finished hstaged hj (by rw [hfailed]; rfl)
        exact ⟨i, by simp [Pool.status, hj', hstatus, hfailed]⟩
      · cases move with
        | raised task failed => exact ⟨task, failed⟩
        | _ => exact absurd hraised' hbefore
  exact hboth.2 hraised

end

/--
Once a job has failed, no run goes past its stage: nothing of a later stage is
submitted and the campaign does not finish.  Only a failed job makes it raise.
-/
theorem failed_job_stops_campaign (holds : Bool) (args : Args) (pipeline : List Item)
    (targets : Finset (String × String)) {s : State}
    (h : (runCampaign holds args pipeline targets).Reachable s) :
    (s.raised = true → ∃ j ∈ s.pool.jobs, j.status = .failed) ∧
    ∀ j ∈ s.pool.jobs, j.status = .failed → ∀ (schedule : List Action) (s' : State),
      (runCampaign holds args pipeline targets).run s schedule = some s' →
      s'.stage ≠ .finished ∧ ∀ y ∈ s'.pool.jobs, y.app.phase.rank ≤ j.app.phase.rank := by
  constructor
  · intro hraised
    obtain ⟨i, hi⟩ := reachable_raised h hraised
    obtain ⟨j, hj, hfailed⟩ := Option.map_eq_some_iff.mp hi
    exact ⟨j, List.mem_of_getElem? hj, hfailed⟩
  · intro j hmem hfailed schedule s' hrun
    obtain ⟨i, hi⟩ := List.mem_iff_getElem?.mp hmem
    obtain ⟨j', hj', happ, hstatus⟩ := run_jobs_finished h hrun hi (by rw [hfailed]; rfl)
    have hstaged := reachable_staged (h.run schedule hrun)
    -- otherwise the stage after the failed job would have found it returned
    have hrank : s'.stage.rank ≤ j.app.phase.rank := by
      by_contra hlt
      have hdone := hstaged.settled i j' hj' (by rw [happ]; omega)
      rw [hstatus, hfailed] at hdone
      contradiction
    refine ⟨fun hfinished => ?_, fun y hy => ?_⟩
    · rw [hfinished] at hrank
      revert hrank
      cases j.app <;> simp [Stage.rank, App.phase, Phase.rank]
    · obtain ⟨k, hk⟩ := List.mem_iff_getElem?.mp hy
      exact (hstaged.reached k y hk).trans hrank

/-- The build of the second harness fails while that of the first one runs. -/
theorem failed_job_stops_campaign_pair :
    ∃ s, s.pool.jobs.map Job.status = [.running, .failed] ∧
      ∀ (schedule : List Action) (s' : State), (pairCampaign true).run s schedule = some s' →
        s'.stage ≠ .finished ∧ ∀ y ∈ s'.pool.jobs, y.app.phase = .build := by
  have hrun : ((pairCampaign true).run (pairCampaign true).init
      [.main, .main, .pool .start 0, .pool .start 0, .pool (.finish 1 false) 3]).map
        (fun s => s.pool.jobs.map fun j => (j.app, j.status)) =
          some [(.build acpiHarness, .running), (.build pciHarness, .failed)] := by
    decide +kernel
  obtain ⟨s, hs, hjobs⟩ := Option.map_eq_some_iff.mp hrun
  have hmem : (App.build pciHarness, JobStatus.failed) ∈
      s.pool.jobs.map fun j => (j.app, j.status) := by
    rw [hjobs]
    decide
  obtain ⟨j, hj, hpair⟩ := List.mem_map.mp hmem
  obtain ⟨happ, hfailed⟩ := Prod.mk.inj hpair
  have hstops := failed_job_stops_campaign true ⟨2, false⟩ [acpiHarness, pciHarness] ∅
    ((Machine.Reachable.init _).run _ hs)
  have hstatus : s.pool.jobs.map Job.status = [.running, .failed] := by
    simpa [Function.comp_def] using congrArg (List.map Prod.snd) hjobs
  refine ⟨s, hstatus, fun schedule s' hrun => ?_⟩
  obtain ⟨hunfinished, hrank⟩ := hstops.2 j hj hfailed schedule s' hrun
  refine ⟨hunfinished, fun y hy => ?_⟩
  have hle := hrank y hy
  rw [happ] at hle
  revert hle
  cases y.app.phase <;> decide

end TdvfFuzz.Campaign.Pipeline
