import TdvfFuzz.Campaign.Pipeline
import TdvfFuzz.Foundation.PoolOrder

/-!
# No stage overtakes another

Every list of futures is awaited before the next stage submits anything, so a
job of a later stage finds all jobs of the earlier ones returned, whatever the
pool does in between.
-/

namespace TdvfFuzz.Campaign.Pipeline

open TdvfFuzz.Foundation

/-! ## What the main thread and the pool can do -/

section

variable (holds : Bool) (args : Args) (pipeline : List Item)

inductive Move (s : State) : Action → State → Prop
  | built (next : ℕ) (p : Item) (stage : s.stage = .build next) (item : pipeline[next]? = some p) :
      Move s .main { s with
        pool := s.pool.submit holds (.build p) none
        buildTasks := s.buildTasks ++ [s.pool.jobs.length]
        stage := .build (next + 1) }
  | builtAll (next : ℕ) (stage : s.stage = .build next) (item : pipeline[next]? = none) :
      Move s .main { s with stage := .results .build 0 }
  | returned (phase : Phase) (next task : ℕ) (stage : s.stage = .results phase next)
      (future : (s.tasks phase)[next]? = some task) (done : s.pool.status task = some .done) :
      Move s .main { s with stage := .results phase (next + 1) }
  | ended (phase : Phase) (next : ℕ) (stage : s.stage = .results phase next)
      (future : (s.tasks phase)[next]? = none) :
      Move s .main { s with stage := phase.following }
  | raised (task : ℕ) (failed : s.pool.status task = some .failed) :
      Move s .main { s with raised := true }
  | arranged (stage : s.stage = .pipes) :
      Move s .main { s with
        pipes := Finset.range args.pipes, fuzzQueue := pipeline, stage := .guard }
  | left (stage : s.stage = .guard) (ended : s.fuzzQueue = [] ∨ s.pipes = ∅) :
      Move s .main { s with stage := .results .fuzz 0 }
  | slept (stage : s.stage = .wait) (none : s.pipes = ∅) :
      Move s .main { s with stage := .scan 0 }
  | resumed (stage : s.stage = .wait) (some : s.pipes ≠ ∅) :
      Move s .main { s with stage := .guard }
  | scanned (index : ℕ) (stage : s.stage = .scan index) (future : s.fuzzTasks[index]? = none) :
      Move s .main { s with stage := .wait }
  | polled (index task : ℕ) (stage : s.stage = .scan index)
      (future : s.fuzzTasks[index]? = some task) (done : s.pool.status task = some .done) :
      Move s .main { s with
        pipes := s.pipes ∪ (s.pool.jobs[task]?.bind fun j => j.app.result).toFinset
        stage := .scan (index + 1) }
  | passed (index task : ℕ) (stage : s.stage = .scan index)
      (future : s.fuzzTasks[index]? = some task)
      (undone : ∀ status, s.pool.status task = some status → status.finished = false) :
      Move s .main { s with stage := .scan (index + 1) }
  | traced (next : ℕ) (p : Item) (stage : s.stage = .trace next) (item : pipeline[next]? = some p) :
      Move s .main { s with
        pool := s.pool.submit holds (.trace p) none
        traceTasks := s.traceTasks ++ [s.pool.jobs.length]
        stage := .smatch next s.pool.jobs.length }
  | tracedAll (next : ℕ) (stage : s.stage = .trace next) (item : pipeline[next]? = none) :
      Move s .main { s with stage := .triage }
  | matched (next waitTask : ℕ) (p : Item) (stage : s.stage = .smatch next waitTask)
      (item : pipeline[next]? = some p) :
      Move s .main { s with
        pool := s.pool.submit holds (.smatch p) (some waitTask)
        traceTasks := s.traceTasks ++ [s.pool.jobs.length]
        stage := .trace (next + 1) }
  | triaged (stage : s.stage = .triage) :
      Move s .main { s with
        pool := s.pool.submit holds .triage none
        traceTasks := s.traceTasks ++ [s.pool.jobs.length]
        stage := .results .trace 0 }
  | summarized (stage : s.stage = .smatcher) :
      Move s .main { s with
        pool := s.pool.submit holds .smatcher none
        smatcherTasks := s.smatcherTasks ++ [s.pool.jobs.length]
        stage := .results .smatcher 0 }
  | submitted (p : Item) (pipeId : ℕ) (stage : s.stage = .guard)
      (last : s.fuzzQueue.getLast? = some p) (free : pipeId ∈ s.pipes) :
      Move s (.submit pipeId) { s with
        pool := s.pool.submit holds (.fuzz p pipeId) none
        fuzzTasks := s.fuzzTasks ++ [s.pool.jobs.length]
        fuzzQueue := s.fuzzQueue.dropLast
        pipes := s.pipes.erase pipeId
        stage := .wait }
  | pooled (a : PoolAction) (copied : ℕ) (pool : Pool App)
      (move : Pool.Move args.pipes s.pool a pool) :
      Move s (.pool a copied) { s with pool, targets := written args s a copied }

end

section

variable {holds : Bool} {args : Args} {pipeline : List Item}

theorem resultStep_move {s s' : State} {phase : Phase} {next : ℕ}
    (stage : s.stage = .results phase next) (h : resultStep s phase next = some s') :
    Move holds args pipeline s .main s' := by
  unfold resultStep at h
  split at h
  case h_1 future => exact Option.some.inj h ▸ .ended phase next stage future
  case h_2 task future =>
    split at h
    case h_1 done => exact Option.some.inj h ▸ .returned phase next task stage future done
    case h_2 failed => exact Option.some.inj h ▸ .raised task failed
    case h_3 => contradiction

theorem scanStep_move {s : State} {index : ℕ} (stage : s.stage = .scan index) :
    Move holds args pipeline s .main (scanStep s index) := by
  unfold scanStep
  split
  case h_1 future => exact .scanned index stage future
  case h_2 task future =>
    split
    case h_1 done => exact .polled index task stage future done
    case h_2 failed => exact .raised task failed
    case h_3 hdone hfailed =>
      refine .passed index task stage future fun status hstatus => ?_
      cases status with
      | done => exact absurd hstatus hdone
      | failed => exact absurd hstatus hfailed
      | _ => rfl

theorem mainStep_move {s s' : State} (h : mainStep holds args pipeline s = some s') :
    Move holds args pipeline s .main s' := by
  cases stage : s.stage with
  | build next =>
      simp only [mainStep, stage, Option.some.injEq, buildStep] at h
      subst h
      split
      case h_1 item => exact .builtAll next stage item
      case h_2 p item => exact .built next p stage item
  | results phase next =>
      simp only [mainStep, stage] at h
      exact resultStep_move stage h
  | pipes =>
      simp only [mainStep, stage, Option.some.injEq] at h
      exact h ▸ .arranged stage
  | guard =>
      simp only [mainStep, stage, Option.ite_none_right_eq_some, Option.some.injEq] at h
      exact h.2 ▸ .left stage h.1
  | wait =>
      simp only [mainStep, stage, Option.some.injEq] at h
      subst h
      by_cases none : s.pipes = ∅
      · simpa only [none, if_true] using Move.slept stage none
      · simpa only [none, if_false] using Move.resumed stage none
  | scan index =>
      simp only [mainStep, stage, Option.some.injEq] at h
      exact h ▸ scanStep_move stage
  | trace next =>
      simp only [mainStep, stage, Option.some.injEq, traceStep] at h
      subst h
      split
      case h_1 item => exact .tracedAll next stage item
      case h_2 p item => exact .traced next p stage item
  | smatch next waitTask =>
      simp only [mainStep, stage, smatchStep] at h
      split at h
      case h_1 => contradiction
      case h_2 p item => exact Option.some.inj h ▸ .matched next waitTask p stage item
  | triage =>
      simp only [mainStep, stage, Option.some.injEq] at h
      exact h ▸ .triaged stage
  | smatcher =>
      simp only [mainStep, stage, Option.some.injEq] at h
      exact h ▸ .summarized stage
  | finished => simp [mainStep, stage] at h

theorem step_move {s s' : State} {a : Action} (h : step holds args pipeline s a = some s') :
    Move holds args pipeline s a s' := by
  cases a with
  | main =>
      simp only [step] at h
      split at h
      case isTrue => contradiction
      case isFalse => exact mainStep_move h
  | submit pipeId =>
      simp only [step, submitStep] at h
      split at h
      case isFalse => contradiction
      case isTrue ready =>
        split at h
        case h_1 => contradiction
        case h_2 p last =>
          split at h
          case isTrue free => exact Option.some.inj h ▸ .submitted p pipeId ready.2 last free
          case isFalse => contradiction
  | pool a copied =>
      simp only [step] at h
      split at h
      case h_1 => contradiction
      case h_2 pool hpool =>
        exact Option.some.inj h ▸ .pooled a copied pool (Pool.step_move hpool)

/-! ## The order of the stages -/

def Phase.rank : Phase → ℕ
  | .build => 0
  | .fuzz => 1
  | .trace => 2
  | .smatcher => 3

/-- The list of futures that a task is appended to. -/
def App.phase : App → Phase
  | .build _ => .build
  | .fuzz _ _ => .fuzz
  | .trace _ | .smatch _ | .triage => .trace
  | .smatcher => .smatcher

def Stage.rank : Stage → ℕ
  | .build _ => 0
  | .results phase _ => phase.rank
  | .pipes | .guard | .wait | .scan _ => 1
  | .trace _ | .smatch _ _ | .triage => 2
  | .smatcher => 3
  | .finished => 4

@[simp] theorem rank_following (phase : Phase) : phase.following.rank = phase.rank + 1 := by
  cases phase <;> rfl

/--
Jobs of earlier stages have returned, no job is ahead of the main thread, and
its futures are those of the jobs.
-/
structure Staged (holds : Bool) (threads : ℕ) (s : State) : Prop where
  sound : s.pool.Sound holds
  fits : s.pool.runningCount ≤ threads
  settled : ∀ (i : ℕ) (j : Job App), s.pool.jobs[i]? = some j →
    j.app.phase.rank < s.stage.rank → j.status = .done
  reached : ∀ (i : ℕ) (j : Job App), s.pool.jobs[i]? = some j →
    j.app.phase.rank ≤ s.stage.rank
  listed : ∀ (i : ℕ) (j : Job App), s.pool.jobs[i]? = some j → i ∈ s.tasks j.app.phase
  awaited : ∀ phase next, s.stage = .results phase next →
    ∀ i ∈ (s.tasks phase).take next, s.pool.status i = some .done
  waits : ∀ next task, s.stage = .smatch next task → task < s.pool.jobs.length
  known : ∀ phase, ∀ i ∈ s.tasks phase, ∃ j, s.pool.jobs[i]? = some j ∧ j.app.phase = phase

/-- A move of the main thread within its stage. -/
theorem Staged.turn {threads : ℕ} {s s' : State} (h : Staged holds threads s)
    (hpool : s'.pool = s.pool) (htasks : s'.tasks = s.tasks) (hrank : s'.stage.rank = s.stage.rank)
    (hresults : ∀ phase next, s'.stage = .results phase next → next = 0)
    (hsmatch : ∀ next task, s'.stage ≠ .smatch next task) : Staged holds threads s' where
  sound := hpool ▸ h.sound
  fits := hpool ▸ h.fits
  settled := by rw [hpool, hrank]; exact h.settled
  reached := by rw [hpool, hrank]; exact h.reached
  listed := by rw [hpool, htasks]; exact h.listed
  awaited := by
    intro phase next hstage i hi
    rw [hresults phase next hstage] at hi
    simp at hi
  waits := fun next task hstage => absurd hstage (hsmatch next task)
  known := by rw [hpool, htasks]; exact h.known

theorem Staged.submit {threads : ℕ} {s s' : State} {app : App} {after : Option ℕ}
    (h : Staged holds threads s) (hpool : s'.pool = s.pool.submit holds app after)
    (hknown : ∀ d ∈ after, d < s.pool.jobs.length)
    (htasks : ∀ phase, s'.tasks phase =
      s.tasks phase ++ if phase = app.phase then [s.pool.jobs.length] else [])
    (hrank : s'.stage.rank = s.stage.rank) (hphase : app.phase.rank = s.stage.rank)
    (hresults : ∀ phase next, s'.stage = .results phase next → next = 0)
    (hsmatch : ∀ next task, s'.stage = .smatch next task → task = s.pool.jobs.length) :
    Staged holds threads s' := by
  obtain ⟨status, hjobs⟩ := s.pool.exists_jobs_submit holds app after
  rw [← hpool] at hjobs
  have hcases {i : ℕ} {j : Job App} (hj : s'.pool.jobs[i]? = some j) :
      i = s.pool.jobs.length ∧ j.app = app ∨ s.pool.jobs[i]? = some j := by
    rw [hjobs, Pool.getElem?_concat_jobs] at hj
    split at hj
    case isTrue hi => exact .inl ⟨hi, by rw [← Option.some.inj hj]⟩
    case isFalse => exact .inr hj
  constructor
  case sound => exact hpool ▸ h.sound.submit app hknown
  case fits =>
    rw [hpool, Pool.runningCount_submit]
    exact h.fits
  case settled =>
    intro i j hj hlt
    rw [hrank] at hlt
    rcases hcases hj with ⟨-, happ⟩ | hj
    · rw [happ] at hlt
      omega
    · exact h.settled i j hj hlt
  case reached =>
    intro i j hj
    rw [hrank]
    rcases hcases hj with ⟨-, happ⟩ | hj
    · rw [happ, hphase]
    · exact h.reached i j hj
  case listed =>
    intro i j hj
    rcases hcases hj with ⟨rfl, happ⟩ | hj
    · rw [htasks, happ]
      simp
    · rw [htasks]
      exact List.mem_append_left _ (h.listed i j hj)
  case awaited =>
    intro phase next hstage i hi
    rw [hresults phase next hstage] at hi
    simp at hi
  case waits =>
    intro next task hstage
    rw [hsmatch next task hstage, hjobs]
    simp
  case known =>
    intro phase i hi
    rw [htasks] at hi
    rcases List.mem_append.mp hi with hi | hi
    · obtain ⟨j, hj, happ⟩ := h.known phase i hi
      exact ⟨j, by rw [hjobs, List.getElem?_append_left (List.getElem?_eq_some_iff.mp hj).1, hj],
        happ⟩
    · split at hi
      case isTrue hphase =>
        obtain rfl := List.mem_singleton.mp hi
        exact ⟨_, by rw [hjobs]; exact List.getElem?_concat_length, hphase.symm⟩
      case isFalse => simp at hi

theorem Staged.pooled {s : State} (h : Staged holds args.pipes s) {a : PoolAction}
    {pool : Pool App} (move : Pool.Move args.pipes s.pool a pool)
    (targets : Finset (String × String)) :
    Staged holds args.pipes { s with pool, targets } := by
  have hlength : pool.jobs.length = s.pool.jobs.length := by
    have := congrArg List.length (move.jobs_map h.sound Job.app fun _ _ => rfl)
    simpa using this
  constructor
  case sound => exact h.sound.move move
  case fits => exact move.runningCount_le h.sound h.fits
  case settled =>
    intro i j' hj' hlt
    obtain ⟨j, hj, happ, -, hkept⟩ := move.exists_job h.sound hj'
    have hdone := h.settled i j hj (happ ▸ hlt)
    rw [hkept (by rw [hdone]; rfl), hdone]
  case reached =>
    intro i j' hj'
    obtain ⟨j, hj, happ, -⟩ := move.exists_job h.sound hj'
    exact happ ▸ h.reached i j hj
  case listed =>
    intro i j' hj'
    obtain ⟨j, hj, happ, -⟩ := move.exists_job h.sound hj'
    exact happ ▸ h.listed i j hj
  case awaited =>
    intro phase next hstage i hi
    exact move.status_finished h.sound (h.awaited phase next hstage i hi) rfl
  case waits =>
    intro next task hstage
    rw [hlength]
    exact h.waits next task hstage
  case known =>
    intro phase i hi
    obtain ⟨j, hj, happ⟩ := h.known phase i hi
    obtain ⟨j', hj', happ', -⟩ := move.job h.sound hj
    exact ⟨j', hj', by rw [happ', happ]⟩

/-- The end of a list of futures: all of its tasks have returned. -/
theorem Staged.ended {threads : ℕ} {s : State} (h : Staged holds threads s) {phase : Phase}
    {next : ℕ} (stage : s.stage = .results phase next)
    (future : (s.tasks phase)[next]? = none) :
    Staged holds threads { s with stage := phase.following } := by
  have hall : (s.tasks phase).take next = s.tasks phase :=
    List.take_of_length_le (List.getElem?_eq_none_iff.mp future)
  have hrank : s.stage.rank = phase.rank := by rw [stage]; rfl
  refine ⟨h.sound, h.fits, ?_, ?_, h.listed, ?_, ?_, h.known⟩
  · intro i j hj hlt
    rw [rank_following] at hlt
    rcases Nat.lt_succ_iff_lt_or_eq.mp hlt with hlt | heq
    · exact h.settled i j hj (hrank ▸ hlt)
    · have hphase : j.app.phase = phase := by
        revert heq
        cases j.app.phase <;> cases phase <;> simp [Phase.rank]
      have hmem := h.listed i j hj
      rw [hphase, ← hall] at hmem
      have := h.awaited phase next stage i hmem
      simpa [Pool.status, hj] using this
  · intro i j hj
    have := h.reached i j hj
    rw [rank_following]
    omega
  · intro phase' next' hstage
    cases phase <;> contradiction
  · intro next' task hstage
    cases phase <;> contradiction

theorem Staged.move {s s' : State} {a : Action} (h : Staged holds args.pipes s)
    (move : Move holds args pipeline s a s') : Staged holds args.pipes s' := by
  cases move with
  | built next p stage item =>
      exact h.submit rfl (by simp) (by rintro (_ | _) <;> simp [State.tasks, App.phase])
        (by rw [stage]; rfl) (by rw [stage]; rfl)
        (by simp) (by simp)
  | builtAll next stage item => exact h.turn rfl rfl (by rw [stage]; rfl) (by simp) (by simp)
  | returned phase next task stage future done =>
      refine ⟨h.sound, h.fits, ?_, ?_, h.listed, ?_, by simp, h.known⟩
      · simpa [stage, Stage.rank] using h.settled
      · simpa [stage, Stage.rank] using h.reached
      · rintro phase' next' hstage i hi
        obtain ⟨rfl, rfl⟩ := Stage.results.inj hstage
        change i ∈ (s.tasks phase).take (next + 1) at hi
        rw [List.take_add_one, future] at hi
        rcases List.mem_append.mp hi with hi | hi
        · exact h.awaited phase next stage i hi
        · obtain rfl : i = task := by simpa using hi
          exact done
  | ended phase next stage future => exact h.ended stage future
  | raised task failed => exact ⟨h.1, h.2, h.3, h.4, h.5, h.6, h.7, h.8⟩
  | arranged stage => exact h.turn rfl rfl (by rw [stage]; rfl) (by simp) (by simp)
  | left stage ended => exact h.turn rfl rfl (by rw [stage]; rfl) (by simp) (by simp)
  | slept stage none => exact h.turn rfl rfl (by rw [stage]; rfl) (by simp) (by simp)
  | resumed stage some => exact h.turn rfl rfl (by rw [stage]; rfl) (by simp) (by simp)
  | scanned index stage future => exact h.turn rfl rfl (by rw [stage]; rfl) (by simp) (by simp)
  | polled index task stage future done =>
      exact h.turn rfl rfl (by rw [stage]; rfl) (by simp) (by simp)
  | passed index task stage future undone =>
      exact h.turn rfl rfl (by rw [stage]; rfl) (by simp) (by simp)
  | tracedAll next stage item => exact h.turn rfl rfl (by rw [stage]; rfl) (by simp) (by simp)
  | traced next p stage item =>
      exact h.submit rfl (by simp) (by rintro (_ | _) <;> simp [State.tasks, App.phase])
        (by rw [stage]; rfl) (by rw [stage]; rfl)
        (by simp) (by simp)
  | matched next waitTask p stage item =>
      exact h.submit rfl (by simpa using h.waits next waitTask stage)
        (by rintro (_ | _) <;> simp [State.tasks, App.phase]) (by rw [stage]; rfl)
        (by rw [stage]; rfl)
        (by simp) (by simp)
  | triaged stage =>
      exact h.submit rfl (by simp) (by rintro (_ | _) <;> simp [State.tasks, App.phase])
        (by rw [stage]; rfl) (by rw [stage]; rfl)
        (by simp) (by simp)
  | summarized stage =>
      exact h.submit rfl (by simp) (by rintro (_ | _) <;> simp [State.tasks, App.phase])
        (by rw [stage]; rfl) (by rw [stage]; rfl)
        (by simp) (by simp)
  | submitted p pipeId stage last free =>
      exact h.submit rfl (by simp) (by rintro (_ | _) <;> simp [State.tasks, App.phase])
        (by rw [stage]; rfl) (by rw [stage]; rfl)
        (by simp) (by simp)
  | pooled a copied pool move => exact h.pooled move _

end

end TdvfFuzz.Campaign.Pipeline
