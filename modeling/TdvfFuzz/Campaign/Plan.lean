import TdvfFuzz.Campaign.Stages

/-!
# What a campaign submits

The submitted jobs are always a beginning of one plan that depends on the
schedule only through the pipe ids, and a campaign that finishes has carried
the plan out.
-/

namespace TdvfFuzz.Campaign.Pipeline

open TdvfFuzz.Foundation

/-! ## The plan -/

def App.handed : App → Option (Item × ℕ)
  | .fuzz p pipeId => some (p, pipeId)
  | _ => none

def traced (p : Item) : List App := [.trace p, .smatch p]

def planned (pipeline : List Item) (ids : List ℕ) : List App :=
  pipeline.map .build ++ List.zipWith .fuzz pipeline.reverse ids ++ pipeline.flatMap traced ++
    [.triage, .smatcher]

def Stage.builds (pipeline : List Item) : Stage → List Item
  | .build next => pipeline.take next
  | _ => pipeline

def Stage.traces (pipeline : List Item) : Stage → List App
  | .trace next => (pipeline.take next).flatMap traced
  | .smatch next _ => (pipeline.take next).flatMap traced ++ pipeline[next]?.toList.map .trace
  | .triage => pipeline.flatMap traced
  | .results .trace _ | .smatcher => pipeline.flatMap traced ++ [.triage]
  | .results .smatcher _ | .finished => pipeline.flatMap traced ++ [.triage, .smatcher]
  | _ => []

/-- What has been submitted at a stage, given the entries handed to the fuzzer. -/
def Stage.apps (pipeline : List Item) (handed : List (Item × ℕ)) (stage : Stage) : List App :=
  (stage.builds pipeline).map .build ++ handed.map (fun h => .fuzz h.1 h.2) ++
    stage.traces pipeline

def State.apps (s : State) : List App := s.pool.jobs.map Job.app

def State.handed (s : State) : List (Item × ℕ) := s.apps.filterMap App.handed

/-- Whether the fuzzing loop has been arranged. -/
def Stage.looping : Stage → Bool
  | .guard | .wait | .scan _ | .results .fuzz _ => true
  | _ => false

structure History (threads : ℕ) (pipeline : List Item) (s : State) : Prop where
  apps : s.apps = s.stage.apps pipeline s.handed
  early : s.stage.rank = 0 ∨ s.stage = .pipes → s.handed = []
  queue : s.stage.looping = true → s.fuzzQueue ++ (s.handed.map Prod.fst).reverse = pipeline
  ended : ∀ next, s.stage = .results .fuzz next → s.fuzzQueue = []
  all : 2 ≤ s.stage.rank → (s.handed.map Prod.fst).reverse = pipeline
  ids : ∀ h ∈ s.handed, h.2 < threads
  free : ∀ id ∈ s.pipes, id < threads
  guarded : s.stage = .guard → s.pipes ≠ ∅

/-! ## The steps keep to the plan -/

section

variable {holds : Bool} {args : Args} {pipeline : List Item}

theorem apps_submit {s s' : State} {app : App} {after : Option ℕ}
    (hpool : s'.pool = s.pool.submit holds app after) : s'.apps = s.apps ++ [app] := by
  obtain ⟨status, hjobs⟩ := s.pool.exists_jobs_submit holds app after
  simp [State.apps, hpool, hjobs]

theorem handed_submit {s s' : State} (app : App) {after : Option ℕ}
    (hpool : s'.pool = s.pool.submit holds app after) :
    s'.handed = s.handed ++ app.handed.toList := by
  rw [State.handed, apps_submit hpool, List.filterMap_append]
  cases app <;> simp [State.handed, App.handed]

theorem mem_handed_of_result {s : State} {task id : ℕ}
    (h : id ∈ s.pool.jobs[task]?.bind fun j => j.app.result) : ∃ p, (p, id) ∈ s.handed := by
  obtain ⟨j, hj, hresult⟩ := Option.bind_eq_some_iff.mp h
  have hmem : j.app ∈ s.apps := List.mem_map_of_mem (List.mem_of_getElem? hj)
  cases happ : j.app with
  | fuzz p pipeId =>
      obtain rfl : pipeId = id := by simpa [happ, App.result] using hresult
      exact ⟨p, List.mem_filterMap.mpr ⟨_, hmem, by simp [happ, App.handed]⟩⟩
  | _ => simp [happ, App.result] at hresult

theorem History.init (threads : ℕ) (targets : Finset (String × String)) :
    History threads pipeline (runCampaign holds args pipeline targets).init := by
  constructor <;> simp [runCampaign, State.apps, State.handed, Pool.empty, Stage.apps,
    Stage.builds, Stage.traces, Stage.looping, Stage.rank]

theorem handed_of_pool {s s' : State} (hpool : s'.pool = s.pool) :
    s'.apps = s.apps ∧ s'.handed = s.handed := by
  simp [State.handed, State.apps, hpool]

/-- Outside of the fuzzing loop the queue and the pipes do not matter. -/
theorem History.leave {threads : ℕ} {s s' : State} (h : History threads pipeline s)
    (hhanded : s'.handed = s.handed) (happs : s'.apps = s'.stage.apps pipeline s.handed)
    (hearly : s'.stage.rank = 0 ∨ s'.stage = .pipes → s.stage.rank = 0 ∨ s.stage = .pipes)
    (hall : 2 ≤ s'.stage.rank → (s.handed.map Prod.fst).reverse = pipeline)
    (hloop : s'.stage.looping = false) (hpipes : s'.pipes = s.pipes) :
    History threads pipeline s' where
  apps := hhanded.symm ▸ happs
  early := fun he => hhanded.trans (h.early (hearly he))
  queue := by simp [hloop]
  ended := by
    intro next hstage
    simp [hstage, Stage.looping] at hloop
  all := fun hrank => by rw [hhanded]; exact hall hrank
  ids := hhanded ▸ h.ids
  free := hpipes ▸ h.free
  guarded := by
    intro hstage
    simp [hstage, Stage.looping] at hloop

/-- A step of the loop that submits nothing. -/
theorem History.loop {threads : ℕ} {s s' : State} (h : History threads pipeline s)
    (hpool : s'.pool = s.pool) (hloop : s.stage.looping = true) (hloop' : s'.stage.looping = true)
    (hqueue : s'.fuzzQueue = s.fuzzQueue)
    (hended : ∀ next, s'.stage = .results .fuzz next → s.fuzzQueue = [])
    (hfree : ∀ id ∈ s'.pipes, id < threads) (hguarded : s'.stage = .guard → s'.pipes ≠ ∅) :
    History threads pipeline s' := by
  obtain ⟨happs, hhanded⟩ := handed_of_pool hpool
  have hfuzz : ∀ stage : Stage, stage.looping = true → stage.rank = 1 ∧ stage ≠ .pipes ∧
      stage.apps pipeline s.handed =
        pipeline.map .build ++ s.handed.map (fun h => .fuzz h.1 h.2) := by
    intro stage hstage
    cases stage with
    | results phase next =>
        cases phase <;> simp_all [Stage.looping, Stage.rank, Phase.rank, Stage.apps, Stage.builds,
          Stage.traces]
    | _ => simp_all [Stage.looping, Stage.rank, Stage.apps, Stage.builds, Stage.traces]
  obtain ⟨-, -, hold⟩ := hfuzz _ hloop
  obtain ⟨hrank, hpipes, hnew⟩ := hfuzz _ hloop'
  constructor
  case apps => rw [happs, hhanded, hnew, h.apps, hold]
  case early => rintro (he | he) <;> simp_all
  case queue => intro; rw [hqueue, hhanded]; exact h.queue hloop
  case ended => intro next hstage; rw [hqueue]; exact hended next hstage
  case all => omega
  case ids => rw [hhanded]; exact h.ids
  case free => exact hfree
  case guarded => exact hguarded

/-- A step outside of the loop that submits nothing. -/
theorem History.stay {threads : ℕ} {s s' : State} (h : History threads pipeline s)
    (hpool : s'.pool = s.pool)
    (happs : s'.stage.apps pipeline s.handed = s.stage.apps pipeline s.handed)
    (hearly : s'.stage.rank = 0 ∨ s'.stage = .pipes → s.stage.rank = 0 ∨ s.stage = .pipes)
    (hall : 2 ≤ s'.stage.rank → (s.handed.map Prod.fst).reverse = pipeline)
    (hloop : s'.stage.looping = false) (hpipes : s'.pipes = s.pipes) :
    History threads pipeline s' := by
  obtain ⟨hsame, hhanded⟩ := handed_of_pool hpool
  exact h.leave hhanded (by rw [hsame, h.apps, happs]) hearly hall hloop hpipes

/-- A step that submits a job other than a fuzzer. -/
theorem History.submit {threads : ℕ} {s s' : State} {app : App} {after : Option ℕ}
    (h : History threads pipeline s) (hpool : s'.pool = s.pool.submit holds app after)
    (happ : app.handed = none)
    (happs : s'.stage.apps pipeline s.handed = s.stage.apps pipeline s.handed ++ [app])
    (hearly : s'.stage.rank = 0 ∨ s'.stage = .pipes → s.stage.rank = 0 ∨ s.stage = .pipes)
    (hall : 2 ≤ s'.stage.rank → (s.handed.map Prod.fst).reverse = pipeline)
    (hloop : s'.stage.looping = false) (hpipes : s'.pipes = s.pipes) :
    History threads pipeline s' := by
  have hhanded : s'.handed = s.handed := by
    rw [handed_submit app hpool, happ, Option.toList_none, List.append_nil]
  exact h.leave hhanded (by rw [apps_submit hpool, h.apps, happs]) hearly hall hloop hpipes

/-- The loop begins with all pipes and the whole pipeline. -/
theorem History.arrange {s : State} (hpipes : 0 < args.pipes)
    (h : History args.pipes pipeline s) (stage : s.stage = .pipes) :
    History args.pipes pipeline
      { s with pipes := Finset.range args.pipes, fuzzQueue := pipeline, stage := .guard } := by
  have hnone : (s.pool.jobs.map Job.app).filterMap App.handed = [] := h.early (.inr stage)
  constructor
  case apps =>
    change s.apps = _
    rw [h.apps, stage]
    rfl
  case queue => simp [State.handed, State.apps, hnone]
  case free => simp
  case guarded => simpa using hpipes.ne'
  case ids => exact h.ids
  case all => simp [Stage.rank]
  case early => simp [Stage.rank]
  case ended => simp

/-- The last entry of the queue is handed to the fuzzer, on a pipe that is free. -/
theorem History.hand {threads : ℕ} {s : State} {p : Item} {pipeId : ℕ}
    (h : History threads pipeline s) (stage : s.stage = .guard)
    (last : s.fuzzQueue.getLast? = some p) (free : pipeId ∈ s.pipes) :
    History threads pipeline { s with
      pool := s.pool.submit holds (.fuzz p pipeId) none
      fuzzTasks := s.fuzzTasks ++ [s.pool.jobs.length]
      fuzzQueue := s.fuzzQueue.dropLast
      pipes := s.pipes.erase pipeId
      stage := .wait } := by
  have hhanded : State.handed { s with
      pool := s.pool.submit holds (.fuzz p pipeId) none
      fuzzTasks := s.fuzzTasks ++ [s.pool.jobs.length]
      fuzzQueue := s.fuzzQueue.dropLast
      pipes := s.pipes.erase pipeId
      stage := .wait } = s.handed ++ [(p, pipeId)] :=
    handed_submit (.fuzz p pipeId) rfl
  constructor
  case apps =>
    rw [apps_submit rfl, hhanded, h.apps, stage]
    simp [Stage.apps, Stage.builds, Stage.traces]
  case early => simp [Stage.rank]
  case queue =>
    intro
    rw [hhanded]
    have hqueue := h.queue (by rw [stage]; rfl)
    rw [← List.dropLast_append_getLast? p last] at hqueue
    simpa using hqueue
  case ended => simp
  case all => simp [Stage.rank]
  case ids =>
    rw [hhanded, List.forall_mem_append, List.forall_mem_singleton]
    exact ⟨h.ids, h.free pipeId free⟩
  case free => exact fun id hid => h.free id (Finset.mem_of_mem_erase hid)
  case guarded => simp

/-- The pool does not change what has been submitted. -/
theorem History.pooled {threads : ℕ} {s s' : State} (h : History threads pipeline s)
    (happs : s'.apps = s.apps) (hstage : s'.stage = s.stage)
    (hqueue : s'.fuzzQueue = s.fuzzQueue) (hpipes : s'.pipes = s.pipes) :
    History threads pipeline s' := by
  have hhanded : s'.handed = s.handed := congrArg (List.filterMap App.handed) happs
  constructor
  case apps => rw [happs, hhanded, hstage]; exact h.apps
  case early => rw [hhanded, hstage]; exact h.early
  case queue => rw [hhanded, hstage, hqueue]; exact h.queue
  case ended => rw [hstage, hqueue]; exact h.ended
  case all => rw [hhanded, hstage]; exact h.all
  case ids => rw [hhanded]; exact h.ids
  case free => rw [hpipes]; exact h.free
  case guarded => rw [hstage, hpipes]; exact h.guarded

theorem History.move {s s' : State} {a : Action} (hstaged : Staged holds args.pipes s)
    (hpipes : 0 < args.pipes) (h : History args.pipes pipeline s)
    (move : Move holds args pipeline s a s') : History args.pipes pipeline s' := by
  cases move with
  | built next p stage item =>
      have hnone : s.handed = [] := h.early (.inl (by rw [stage]; rfl))
      refine h.submit rfl rfl ?_ (by simp [stage, Stage.rank]) (by simp [Stage.rank]) rfl rfl
      simp [stage, Stage.apps, Stage.builds, Stage.traces, List.take_add_one, item, hnone]
  | builtAll next stage item =>
      have htake : pipeline.take next = pipeline :=
        List.take_of_length_le (List.getElem?_eq_none_iff.mp item)
      refine h.stay rfl ?_ (by simp [stage, Stage.rank]) (by simp [Stage.rank, Phase.rank]) rfl rfl
      simp [stage, Stage.apps, Stage.builds, Stage.traces, htake]
  | returned phase next task stage future done =>
      by_cases hphase : phase = .fuzz
      · subst hphase
        exact h.loop rfl (by rw [stage]; rfl) rfl rfl (fun _ _ => h.ended next stage) h.free
          (by simp)
      · refine h.stay rfl (by rw [stage]; cases phase <;> rfl) (by simp [stage, Stage.rank])
          (fun hrank => h.all (by rw [stage]; exact hrank)) ?_ rfl
        cases phase <;> simp_all [Stage.looping]
  | ended phase next stage future =>
      refine h.stay rfl (by rw [stage]; cases phase <;> rfl) ?_ (fun hrank => ?_)
        (by cases phase <;> rfl) rfl
      · cases phase <;> simp [stage, Phase.following, Stage.rank, Phase.rank]
      · cases phase with
        | build => simp [Phase.following, Stage.rank] at hrank
        | fuzz =>
            have hqueue := h.queue (by rw [stage]; rfl)
            rwa [h.ended next stage, List.nil_append] at hqueue
        | trace => exact h.all (by rw [stage]; exact le_rfl)
        | smatcher => exact h.all (by rw [stage]; exact Nat.le_succ 2)
  | raised task failed => exact h.pooled rfl rfl rfl rfl
  | arranged stage => exact h.arrange hpipes stage
  | left stage ended =>
      refine h.loop rfl (by rw [stage]; rfl) rfl rfl (fun _ _ => ?_) h.free (by simp)
      exact ended.resolve_right (h.guarded stage)
  | slept stage none => exact h.loop rfl (by rw [stage]; rfl) rfl rfl (by simp) h.free (by simp)
  | resumed stage some =>
      exact h.loop rfl (by rw [stage]; rfl) rfl rfl (by simp) h.free (fun _ => some)
  | scanned index stage future =>
      exact h.loop rfl (by rw [stage]; rfl) rfl rfl (by simp) h.free (by simp)
  | polled index task stage future done =>
      refine h.loop rfl (by rw [stage]; rfl) rfl rfl (by simp) (fun id hid => ?_) (by simp)
      rcases Finset.mem_union.mp hid with hid | hid
      · exact h.free id hid
      · obtain ⟨p, hp⟩ := mem_handed_of_result (Option.mem_toFinset.mp hid)
        exact h.ids _ hp
  | passed index task stage future undone =>
      exact h.loop rfl (by rw [stage]; rfl) rfl rfl (by simp) h.free (by simp)
  | traced next p stage item =>
      refine h.submit rfl rfl ?_ (by simp [Stage.rank])
        (fun _ => h.all (by rw [stage]; exact le_rfl)) rfl rfl
      simp [stage, Stage.apps, Stage.builds, Stage.traces, item]
  | tracedAll next stage item =>
      have htake : pipeline.take next = pipeline :=
        List.take_of_length_le (List.getElem?_eq_none_iff.mp item)
      refine h.stay rfl ?_ (by simp [Stage.rank]) (fun _ => h.all (by rw [stage]; exact le_rfl))
        rfl rfl
      simp [stage, Stage.apps, Stage.builds, Stage.traces, htake]
  | matched next waitTask p stage item =>
      refine h.submit rfl rfl ?_ (by simp [Stage.rank])
        (fun _ => h.all (by rw [stage]; exact le_rfl)) rfl rfl
      simp [stage, Stage.apps, Stage.builds, Stage.traces, List.take_add_one, item, traced]
  | triaged stage =>
      refine h.submit rfl rfl ?_ (by simp [Stage.rank, Phase.rank])
        (fun _ => h.all (by rw [stage]; exact le_rfl)) rfl rfl
      simp [stage, Stage.apps, Stage.builds, Stage.traces]
  | summarized stage =>
      refine h.submit rfl rfl ?_ (by simp [Stage.rank, Phase.rank])
        (fun _ => h.all (by rw [stage]; decide)) rfl rfl
      simp [stage, Stage.apps, Stage.builds, Stage.traces]
  | submitted p pipeId stage last free => exact h.hand stage last free
  | pooled a copied pool move =>
      exact h.pooled (move.jobs_map hstaged.sound Job.app fun _ _ => rfl) rfl rfl rfl

/-! ## Every reachable state -/

theorem reachable_staged {targets : Finset (String × String)} {s : State}
    (h : (runCampaign holds args pipeline targets).Reachable s) : Staged holds args.pipes s := by
  refine h.invariant ?_ fun _ _ _ hs hstep => hs.move (step_move hstep)
  refine ⟨Pool.Sound.empty holds, ?_, ?_, ?_, ?_, ?_, ?_, ?_⟩ <;>
    simp [runCampaign, Pool.empty, Pool.runningCount]
  rintro (_ | _) <;> simp [State.tasks]

theorem reachable_history (hpipes : 0 < args.pipes) {targets : Finset (String × String)}
    {s : State} (h : (runCampaign holds args pipeline targets).Reachable s) :
    Staged holds args.pipes s ∧ History args.pipes pipeline s := by
  refine Machine.Reachable.invariant
    (P := fun s => Staged holds args.pipes s ∧ History args.pipes pipeline s) ?_ ?_ h
  · exact ⟨reachable_staged (Machine.Reachable.init _), History.init _ targets⟩
  · rintro s a s' ⟨hstaged, hs⟩ hstep
    exact ⟨hstaged.move (step_move hstep), hs.move hstaged hpipes (step_move hstep)⟩

theorem traces_isPrefix (stage : Stage) :
    stage.traces pipeline <+: pipeline.flatMap traced ++ [.triage, .smatcher] := by
  have htake (next : ℕ) : (pipeline.take next).flatMap traced <+: pipeline.flatMap traced := by
    conv_rhs => rw [← List.take_append_drop next pipeline, List.flatMap_append]
    exact List.prefix_append _ _
  have hend : pipeline.flatMap traced ++ [.triage] <+:
      pipeline.flatMap traced ++ [.triage, .smatcher] :=
    (List.prefix_append_right_inj _).mpr ⟨[.smatcher], rfl⟩
  cases stage with
  | trace next => exact (htake next).trans (List.prefix_append _ _)
  | smatch next waitTask =>
      refine List.IsPrefix.trans ?_ (List.prefix_append _ _)
      cases item : pipeline[next]? with
      | none => simpa [Stage.traces, item] using htake next
      | some p =>
          refine List.IsPrefix.trans ?_ (htake (next + 1))
          simp only [Stage.traces, item, List.take_add_one, List.flatMap_append,
            Option.toList_some]
          exact (List.prefix_append_right_inj _).mpr ⟨[.smatch p], rfl⟩
  | triage => exact List.prefix_append _ _
  | results phase next =>
      cases phase with
      | trace => exact hend
      | smatcher => exact List.prefix_rfl
      | _ => exact List.nil_prefix
  | smatcher => exact hend
  | finished => exact List.prefix_rfl
  | _ => exact List.nil_prefix

theorem zipWith_fuzz (handed : List (Item × ℕ)) (rest : List Item) :
    List.zipWith App.fuzz (handed.map Prod.fst ++ rest)
        (handed.map Prod.snd ++ rest.map fun _ => 0) =
      handed.map (fun h => App.fuzz h.1 h.2) ++ rest.map (App.fuzz · 0) := by
  induction handed with
  | nil =>
      simp only [List.map_nil, List.nil_append, List.zipWith_map_right, List.zipWith_self]
  | cons h handed ih =>
      simp only [List.map_cons, List.cons_append, List.zipWith_cons_cons, ih]

/-- The entries that no fuzz job has been submitted for, and what that says about the rest. -/
theorem History.exists_rest {threads : ℕ} {s : State} (h : History threads pipeline s) :
    ∃ rest, pipeline.reverse = s.handed.map Prod.fst ++ rest ∧
      (rest = [] ∨ s.stage.traces pipeline = []) ∧ (2 ≤ s.stage.rank → rest = []) := by
  by_cases hlate : 2 ≤ s.stage.rank
  · refine ⟨[], ?_, .inl rfl, by simp⟩
    rw [← h.all hlate]
    simp
  · have htraces : s.stage.traces pipeline = [] := by
      cases hstage : s.stage with
      | results phase => cases phase <;> simp_all [Stage.rank, Stage.traces, Phase.rank]
      | _ => simp_all [Stage.rank, Stage.traces]
    by_cases hloop : s.stage.looping = true
    · refine ⟨s.fuzzQueue.reverse, ?_, .inr htraces, fun hrank => absurd hrank hlate⟩
      rw [← h.queue hloop]
      simp
    · have hearly : s.handed = [] := by
        apply h.early
        cases hstage : s.stage with
        | results phase => cases phase <;> simp_all [Stage.looping, Stage.rank, Phase.rank]
        | _ => simp_all [Stage.looping, Stage.rank]
      exact ⟨pipeline.reverse, by simp [hearly], .inr htraces, fun hrank => absurd hrank hlate⟩

theorem History.builds_eq {threads : ℕ} {s : State} (h : History threads pipeline s) :
    s.stage.builds pipeline = pipeline ∨ s.handed = [] ∧ s.stage.traces pipeline = [] := by
  cases hstage : s.stage with
  | build next => exact .inr ⟨h.early (.inl (by rw [hstage]; rfl)), rfl⟩
  | _ => exact .inl rfl

theorem builds_isPrefix (stage : Stage) : stage.builds pipeline <+: pipeline := by
  cases stage with
  | build next => exact List.take_prefix next pipeline
  | _ => exact List.prefix_rfl

end

/--
Whatever the schedule, the submitted jobs are a beginning of the plan: one build,
one fuzz, one trace and one match job for each entry.  A campaign that finishes
has carried out all of it.
-/
theorem campaign_follows_plan (holds : Bool) (args : Args) (pipeline : List Item)
    (targets : Finset (String × String)) (hpipes : 0 < args.pipes) {s : State}
    (h : (runCampaign holds args pipeline targets).Reachable s) :
    ∃ ids : List ℕ, ids.length = pipeline.length ∧ (∀ id ∈ ids, id < args.pipes) ∧
      s.pool.jobs.map Job.app <+: planned pipeline ids ∧
      (s.stage = .finished →
        s.pool.jobs.map Job.app = planned pipeline ids ∧ ∀ j ∈ s.pool.jobs, j.status = .done) := by
  obtain ⟨hstaged, hhistory⟩ := reachable_history hpipes h
  obtain ⟨rest, hrest, htraces, hlate⟩ := hhistory.exists_rest
  refine ⟨s.handed.map Prod.snd ++ rest.map fun _ => 0, ?_, ?_, ?_, ?_⟩
  · have := congrArg List.length hrest
    simpa using this.symm
  · intro id hid
    rcases List.mem_append.mp hid with hid | hid
    · obtain ⟨handed, hmem, rfl⟩ := List.mem_map.mp hid
      exact hhistory.ids handed hmem
    · obtain ⟨-, -, rfl⟩ := List.mem_map.mp hid
      exact hpipes
  · change s.apps <+: _
    rw [hhistory.apps, planned, hrest, zipWith_fuzz, Stage.apps]
    simp only [List.append_assoc]
    rcases hhistory.builds_eq with hbuilds | ⟨hhanded, hnone⟩
    · rw [hbuilds, List.prefix_append_right_inj, List.prefix_append_right_inj]
      rcases htraces with rfl | hnone
      · exact traces_isPrefix s.stage
      · exact hnone ▸ List.nil_prefix
    · simp only [hhanded, hnone, List.map_nil, List.append_nil]
      exact ((builds_isPrefix s.stage).map _).trans (List.prefix_append _ _)
  · intro hfinished
    refine ⟨?_, fun j hj => ?_⟩
    · change s.apps = _
      rw [hhistory.apps, planned, hrest, zipWith_fuzz, hlate (by rw [hfinished]; decide), hfinished]
      simp [Stage.apps, Stage.builds, Stage.traces]
    · obtain ⟨i, hi⟩ := List.mem_iff_getElem?.mp hj
      refine hstaged.settled i j hi ?_
      have hrank : j.app.phase.rank < 4 := by
        cases j.app <;> simp [App.phase, Phase.rank]
      rw [hfinished]
      exact hrank

/-! ## Two harnesses on two pipes -/

def acpiHarness : Item := ⟨⟨"BOOT_ACPI", "BOOT_ACPI/target", "BOOT_ACPI/workdir_0"⟩, "BOOT_ACPI",
  "BOOT_ACPI/build_0"⟩

def pciHarness : Item := ⟨⟨"BOOT_PCI", "BOOT_PCI/target", "BOOT_PCI/workdir_0"⟩, "BOOT_PCI",
  "BOOT_PCI/build_0"⟩

def pairCampaign (holds : Bool) : Machine State Action :=
  runCampaign holds ⟨2, false⟩ [acpiHarness, pciHarness] ∅

/-- Both harnesses are built, and both fuzzers run. -/
def fuzzingSchedule : List Action :=
  [.main, .main, .main, .pool .start 0, .pool .start 0, .pool (.finish 1 true) 0,
    .pool (.finish 0 true) 0, .main, .main, .main, .main, .submit 0, .main, .submit 1,
    .pool .start 0, .pool .start 0]

theorem fuzzingSchedule_fuzzes : ∃ s, (pairCampaign true).Reachable s ∧
    s.pool.jobs.map (fun j => (j.app, j.status)) = [(.build acpiHarness, .done),
      (.build pciHarness, .done), (.fuzz pciHarness 0, .running),
      (.fuzz acpiHarness 1, .running)] := by
  have hrun : ((pairCampaign true).run (pairCampaign true).init fuzzingSchedule).map
      (fun s => s.pool.jobs.map fun j => (j.app, j.status)) = some [(.build acpiHarness, .done),
        (.build pciHarness, .done), (.fuzz pciHarness 0, .running),
        (.fuzz acpiHarness 1, .running)] := by
    decide +kernel
  obtain ⟨s, hs, hjobs⟩ := Option.map_eq_some_iff.mp hrun
  exact ⟨s, (Machine.Reachable.init _).run fuzzingSchedule hs, hjobs⟩

/-- The first fuzzer returns in front of the second, and all later jobs are submitted. -/
def tracingSchedule : List Action :=
  fuzzingSchedule ++ [.pool (.finish 2 true) 0, .main, .main, .main, .main, .main, .main, .main,
    .pool (.finish 3 true) 0, .main, .main, .main, .main, .main, .main, .main, .main]

def finishingSchedule : List Action :=
  tracingSchedule ++ [.pool .start 0, .pool .start 0, .pool (.finish 4 true) 0,
    .pool (.resolve 5) 0, .pool (.finish 6 true) 0, .pool (.resolve 7) 0, .pool .start 0,
    .pool .start 0, .pool (.finish 8 true) 0, .pool .start 0, .pool (.finish 5 true) 0,
    .pool (.finish 7 true) 0,
    .main, .main, .main, .main, .main, .main, .main, .pool .start 0, .pool (.finish 9 true) 0,
    .main, .main]

theorem finishingSchedule_finishes :
    ∃ s, (pairCampaign true).Reachable s ∧ s.stage = .finished := by
  have hrun : ((pairCampaign true).run (pairCampaign true).init finishingSchedule).map (·.stage) =
      some .finished := by
    decide +kernel
  obtain ⟨s, hs, hstage⟩ := Option.map_eq_some_iff.mp hrun
  exact ⟨s, (Machine.Reachable.init _).run finishingSchedule hs, hstage⟩

theorem campaign_follows_plan_pair :
    ∃ s, (pairCampaign true).Reachable s ∧ ∃ ids : List ℕ, ids.length = 2 ∧ (∀ id ∈ ids, id < 2) ∧
      s.pool.jobs.map Job.app = planned [acpiHarness, pciHarness] ids ∧
      ∀ j ∈ s.pool.jobs, j.status = .done := by
  obtain ⟨s, hs, hstage⟩ := finishingSchedule_finishes
  obtain ⟨ids, hlength, hids, -, hfinished⟩ :=
    campaign_follows_plan true ⟨2, false⟩ [acpiHarness, pciHarness] ∅ (by decide) hs
  exact ⟨s, hs, ids, hlength, hids, hfinished hstage⟩

end TdvfFuzz.Campaign.Pipeline
