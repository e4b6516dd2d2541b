import TdvfFuzz.Campaign.Exclusive
import TdvfFuzz.Campaign.Plan
import TdvfFuzz.Campaign.Submission

/-!
# The campaign refines its fuzzing loop

Forgetting every job but the fuzzers turns each step of the campaign into at
most one step of the loop.  So what holds of the loop alone holds of it between
the other stages, in the pool that it shares with them.
-/

namespace TdvfFuzz.Campaign.Pipeline

open TdvfFuzz.Foundation

/-! ## The abstraction -/

/-- A failed fuzzer is done, and the main thread stands still once it looks at it. -/
def loopStatus : JobStatus → TaskStatus
  | .pending | .queued => .queued
  | .running => .running
  | .done | .failed => .done

def fuzzTask (pool : Pool App) (index : ℕ) : Task :=
  match pool.jobs[index]? with
  | some ⟨.fuzz p pipeId, _, status⟩ => ⟨p.toEntry, pipeId, loopStatus status⟩
  | _ => ⟨⟨"", "", ""⟩, 0, .done⟩

def Stage.pc : Stage → Pc
  | .build _ | .results .build _ | .pipes | .guard => .guard
  | .wait => .wait
  | .scan index => .scan index
  | .results .fuzz _ => .drain
  | _ => .finished

/-- Whether `pipes` and `fuzz_queue` have been assigned. -/
def Stage.entered : Stage → Bool
  | .build _ | .results .build _ | .pipes => false
  | _ => true

def loopState (args : Args) (pipeline : List Item) (s : State) : Campaign.State where
  fuzzQueue := (if s.stage.entered then s.fuzzQueue else pipeline).map Item.toEntry
  pipes := if s.stage.entered then s.pipes else Finset.range args.pipes
  fuzzTasks := s.fuzzTasks.map (fuzzTask s.pool)
  pc := s.stage.pc

section

variable {holds : Bool} {args : Args} {pipeline : List Item}

theorem fuzzTask_eq {pool : Pool App} {index : ℕ} {j : Job App} {p : Item} {pipeId : ℕ}
    (hj : pool.jobs[index]? = some j) (happ : j.app = .fuzz p pipeId) :
    fuzzTask pool index = ⟨p.toEntry, pipeId, loopStatus j.status⟩ := by
  obtain ⟨app, after, status⟩ := j
  obtain rfl : app = .fuzz p pipeId := happ
  simp only [fuzzTask, hj]

theorem exists_fuzzTask {threads : ℕ} {s : State} (h : Staged holds threads s) {index : ℕ}
    (hindex : index ∈ s.fuzzTasks) :
    ∃ j p pipeId, s.pool.jobs[index]? = some j ∧ j.app = .fuzz p pipeId ∧
      fuzzTask s.pool index = ⟨p.toEntry, pipeId, loopStatus j.status⟩ := by
  obtain ⟨j, hj, hphase⟩ := h.known .fuzz index hindex
  cases happ : j.app with
  | fuzz p pipeId => exact ⟨j, p, pipeId, hj, rfl.trans happ, fuzzTask_eq hj happ⟩
  | _ => simp [happ, App.phase] at hphase

theorem fuzzTask_submit {s : State} {app : App} {after : Option ℕ} {index : ℕ}
    (hindex : index < s.pool.jobs.length) :
    fuzzTask (s.pool.submit holds app after) index = fuzzTask s.pool index := by
  obtain ⟨status, hjobs⟩ := s.pool.exists_jobs_submit holds app after
  simp only [fuzzTask, hjobs, List.getElem?_append_left hindex]

theorem map_fuzzTask_submit {threads : ℕ} {s : State} (h : Staged holds threads s) (app : App)
    (after : Option ℕ) :
    s.fuzzTasks.map (fuzzTask (s.pool.submit holds app after)) =
      s.fuzzTasks.map (fuzzTask s.pool) := by
  refine List.map_congr_left fun index hindex => fuzzTask_submit ?_
  obtain ⟨j, hj, -⟩ := h.known .fuzz index hindex
  exact (List.getElem?_eq_some_iff.mp hj).1

/-! ## The order of the jobs -/

/-- The fuzzers are submitted in order, and before the traces the queue keeps it. -/
structure Lined (s : State) : Prop where
  tasks : s.fuzzTasks.Pairwise (· < ·)
  queue : s.stage.rank ≤ 1 → s.pool.queue.Pairwise (· < ·)
  after : ∀ (i : ℕ) (j : Job App), s.pool.jobs[i]? = some j → j.after ≠ none →
    j.app.phase = .trace

theorem Lined.turn {s s' : State} (h : Lined s) (hpool : s'.pool = s.pool)
    (htasks : s'.fuzzTasks = s.fuzzTasks) (hrank : s'.stage.rank ≤ 1 → s.stage.rank ≤ 1) :
    Lined s' where
  tasks := htasks ▸ h.tasks
  queue := fun hle => hpool ▸ h.queue (hrank hle)
  after := hpool ▸ h.after

theorem Lined.submit {threads : ℕ} {s s' : State} (hstaged : Staged holds threads s) (h : Lined s)
    {app : App} {after : Option ℕ} (hpool : s'.pool = s.pool.submit holds app after)
    (htasks : s'.fuzzTasks = s.fuzzTasks ∨ s'.fuzzTasks = s.fuzzTasks ++ [s.pool.jobs.length])
    (hrank : s'.stage.rank = s.stage.rank)
    (hafter : after ≠ none → app.phase = .trace ∧ 2 ≤ s.stage.rank) : Lined s' := by
  obtain ⟨status, hjobs⟩ := s.pool.exists_jobs_submit holds app after
  rw [← hpool] at hjobs
  constructor
  case tasks =>
    rcases htasks with htasks | htasks
    · exact htasks ▸ h.tasks
    · rw [htasks]
      refine List.pairwise_append.mpr ⟨h.tasks, List.pairwise_singleton _ _, ?_⟩
      intro i hi k hk
      obtain ⟨j, hj, -⟩ := hstaged.known .fuzz i hi
      exact List.mem_singleton.mp hk ▸ (List.getElem?_eq_some_iff.mp hj).1
  case queue =>
    intro hle
    rw [hrank] at hle
    have hnone : after = none := by
      by_contra hsome
      have := (hafter hsome).2
      omega
    have hqueue : s'.pool.queue = s.pool.queue ++ [s.pool.jobs.length] := by
      rw [hpool, hnone]
      simp [Pool.submit]
    rw [hqueue]
    refine List.pairwise_append.mpr ⟨h.queue hle, List.pairwise_singleton _ _, ?_⟩
    intro i hi k hk
    exact List.mem_singleton.mp hk ▸ Pool.lt_of_status ((hstaged.sound.queued i).mp hi)
  case after =>
    intro i j hj hsome
    rw [hjobs, Pool.getElem?_concat_jobs] at hj
    split at hj
    case isTrue =>
      obtain rfl := Option.some.inj hj
      exact (hafter hsome).1
    case isFalse => exact h.after i j hj hsome

theorem Lined.pooled {s : State} (hstaged : Staged holds args.pipes s) (h : Lined s)
    {a : PoolAction} {pool : Pool App} (move : Pool.Move args.pipes s.pool a pool)
    (targets : Finset (String × String)) : Lined { s with pool, targets } := by
  constructor
  case tasks => exact h.tasks
  case queue =>
    intro hle
    have hqueue := h.queue hle
    cases move with
    | launched index j waiting pending ended =>
        have hsome : j.after ≠ none := by
          rintro hnone
          simp [hnone] at ended
        have hreached := hstaged.reached index j waiting
        rw [h.after index j waiting hsome] at hreached
        exact absurd (hreached.trans hle) (by decide)
    | started index rest first => exact (first ▸ hqueue).of_cons
    | _ => exact hqueue
  case after =>
    intro i j' hj' hsome
    obtain ⟨j, hj, happ, hafter, -⟩ := move.exists_job hstaged.sound hj'
    exact happ ▸ h.after i j hj (hafter ▸ hsome)

theorem Lined.move {s s' : State} {a : Action} (hstaged : Staged holds args.pipes s)
    (h : Lined s) (move : Move holds args pipeline s a s') : Lined s' := by
  cases move with
  | built next p stage => exact h.submit hstaged rfl (.inl rfl) (by rw [stage]; rfl) (by simp)
  | traced next p stage => exact h.submit hstaged rfl (.inl rfl) (by rw [stage]; rfl) (by simp)
  | triaged stage => exact h.submit hstaged rfl (.inl rfl) (by rw [stage]; rfl) (by simp)
  | summarized stage => exact h.submit hstaged rfl (.inl rfl) (by rw [stage]; rfl) (by simp)
  | submitted p pipeId stage =>
      exact h.submit hstaged rfl (.inr rfl) (by rw [stage]; rfl) (by simp)
  | matched next waitTask p stage =>
      exact h.submit hstaged rfl (.inl rfl) (by rw [stage]; rfl)
        fun _ => ⟨rfl, by rw [stage]; exact le_rfl⟩
  | pooled a copied pool move => exact h.pooled hstaged move _
  | ended phase next stage =>
      refine h.turn rfl rfl fun hle => ?_
      rw [rank_following] at hle
      rw [stage]
      exact (Nat.le_succ _).trans hle
  | raised => exact ⟨h.tasks, h.queue, h.after⟩
  | builtAll next stage => exact h.turn rfl rfl fun _ => by rw [stage]; exact Nat.zero_le _
  | returned phase next task stage => exact h.turn rfl rfl fun hle => by rw [stage]; exact hle
  | arranged stage | left stage | slept stage | resumed stage =>
      exact h.turn rfl rfl fun _ => by rw [stage]; exact le_rfl
  | scanned index stage | polled index task stage | passed index task stage =>
      exact h.turn rfl rfl fun _ => by rw [stage]; exact le_rfl
  | tracedAll next stage => exact h.turn rfl rfl fun hle => by simp [Stage.rank] at hle

/-! ## The pool as the loop sees it -/

theorem getElem?_index {indices : List ℕ} (h : indices.Pairwise (· < ·)) {k index k' : ℕ}
    (hk : indices[k]? = some index) (hk' : indices[k']? = some index) : k' = k := by
  obtain ⟨hlt, rfl⟩ := List.getElem?_eq_some_iff.mp hk
  obtain ⟨hlt', heq⟩ := List.getElem?_eq_some_iff.mp hk'
  have hnodup : indices.Nodup := h.imp fun hlt => hlt.ne
  exact (hnodup.getElem_inj_iff).mp heq

theorem map_fuzzTask_setStatus {s : State} (hlined : Lined s) {index k : ℕ}
    (hk : s.fuzzTasks[k]? = some index) {j : Job App} {p : Item} {pipeId : ℕ}
    (hj : s.pool.jobs[index]? = some j) (happ : j.app = .fuzz p pipeId) (next : JobStatus)
    (queue : List ℕ) :
    s.fuzzTasks.map (fuzzTask ⟨Pool.setStatus s.pool.jobs index next, queue⟩) =
      Campaign.setStatus (s.fuzzTasks.map (fuzzTask s.pool)) k (loopStatus next) := by
  apply List.ext_getElem?
  intro k'
  simp only [Campaign.setStatus, List.getElem?_modify, List.getElem?_map, Option.map_eq_map,
    Option.map_map]
  cases hk' : s.fuzzTasks[k']? with
  | none => rfl
  | some index' =>
      simp only [Option.map_some, Function.comp_apply, Option.some.injEq]
      by_cases hsame : index' = index
      · subst hsame
        obtain rfl := getElem?_index hlined.tasks hk hk'
        have hnew : (Pool.setStatus s.pool.jobs index' next)[index']? =
            some { j with status := next } := by
          simp [Pool.getElem?_setStatus, hj]
        rw [if_pos rfl, fuzzTask_eq hj happ, fuzzTask_eq (j := { j with status := next }) hnew happ]
      · have hne : k ≠ k' := by
          rintro rfl
          exact hsame (Option.some.inj (hk'.symm.trans hk))
        have hold : (Pool.setStatus s.pool.jobs index next)[index']? = s.pool.jobs[index']? := by
          have hne' : index ≠ index' := fun h => hsame h.symm
          simp [Pool.getElem?_setStatus, hne']
        rw [if_neg hne]
        simp only [fuzzTask, hold]

theorem map_fuzzTask_of_notMem {s : State} {index : ℕ} (hindex : index ∉ s.fuzzTasks)
    (next : JobStatus) (queue : List ℕ) :
    s.fuzzTasks.map (fuzzTask ⟨Pool.setStatus s.pool.jobs index next, queue⟩) =
      s.fuzzTasks.map (fuzzTask s.pool) := by
  refine List.map_congr_left fun index' hindex' => ?_
  have hne : index ≠ index' := fun h => hindex (h ▸ hindex')
  have hold : (Pool.setStatus s.pool.jobs index next)[index']? = s.pool.jobs[index']? := by
    rw [Pool.getElem?_setStatus]
    simp [hne]
  simp only [fuzzTask, hold]

theorem countP_indices_le {α : Type*} (q : α → Bool) (jobs : List α) {indices : List ℕ}
    (hnodup : indices.Nodup) :
    indices.countP (fun i => jobs[i]?.any q) ≤ jobs.countP q := by
  have hrange : (List.range jobs.length).countP (fun i => jobs[i]?.any q) = jobs.countP q := by
    have hmap : (List.range jobs.length).map (fun i => jobs[i]?) = jobs.map some := by
      apply List.ext_getElem
      · simp
      · intro i hi hi'
        simp at hi
        simp [hi]
    have := congrArg (List.countP fun o => Option.any q o) hmap
    simpa [List.countP_map, Function.comp_def] using this
  rw [← hrange, List.countP_eq_length_filter, List.countP_eq_length_filter]
  refine ((hnodup.filter _).subperm fun i hi => ?_).length_le
  obtain ⟨-, hany⟩ := List.mem_filter.mp hi
  refine List.mem_filter.mpr ⟨List.mem_range.mpr ?_, hany⟩
  by_contra hle
  simp [List.getElem?_eq_none (not_lt.mp hle)] at hany

theorem runningCount_loop_le {threads : ℕ} {s : State} (h : Staged holds threads s)
    (hlined : Lined s) :
    Campaign.runningCount (s.fuzzTasks.map (fuzzTask s.pool)) ≤ s.pool.runningCount := by
  have hnodup : s.fuzzTasks.Nodup := hlined.tasks.imp fun hlt => hlt.ne
  refine le_trans (le_of_eq ?_) (countP_indices_le _ s.pool.jobs hnodup)
  rw [Campaign.runningCount, List.countP_map]
  refine List.countP_congr fun index hindex => ?_
  obtain ⟨j, p, pipeId, hj, -, htask⟩ := exists_fuzzTask h hindex
  cases hstatus : j.status <;> simp [htask, hj, hstatus, loopStatus]

theorem Lined.start {s s' : State} (hstaged : Staged holds args.pipes s) (hlined : Lined s)
    {k index : ℕ} {rest : List ℕ} (hk : s.fuzzTasks[k]? = some index)
    (first : s.pool.queue = index :: rest) (idle : s.pool.runningCount < args.pipes)
    (hs' : loopState args pipeline s' = { loopState args pipeline s with
      fuzzTasks := Campaign.setStatus (s.fuzzTasks.map (fuzzTask s.pool)) k .running }) :
    Campaign.step args.pipes (loopState args pipeline s) .start =
      some (loopState args pipeline s') := by
  have hqueued : s.pool.status index = some .queued :=
    (hstaged.sound.queued index).mp (by simp [first])
  obtain ⟨j, p, pipeId, hj, happ, htask⟩ := exists_fuzzTask hstaged (List.mem_of_getElem? hk)
  have hstatus : j.status = .queued := by simpa [Pool.status, hj] using hqueued
  have hrank : s.stage.rank ≤ 1 := by
    by_contra hlt
    have := hstaged.settled index j hj (by rw [happ]; simpa [App.phase, Phase.rank] using hlt)
    rw [hstatus] at this
    contradiction
  have hleast : (s.fuzzTasks.map (fuzzTask s.pool)).findIdx? (fun t => t.status = .queued) =
      some k := by
    obtain ⟨hlt, hindex⟩ := List.getElem?_eq_some_iff.mp hk
    refine List.findIdx?_eq_some_iff_getElem.mpr ⟨by simpa using hlt, ?_, fun i hi => ?_⟩
    · simp [hindex, htask, hstatus, loopStatus]
    · -- an earlier fuzzer that is still queued would be ahead in the queue
      have hearlier : s.fuzzTasks[i] < index :=
        hindex ▸ List.pairwise_iff_getElem.mp hlined.tasks i k (hi.trans hlt) hlt hi
      obtain ⟨j', p', pipeId', hj', happ', htask'⟩ :=
        exists_fuzzTask hstaged (List.getElem_mem (hi.trans hlt))
      simp only [List.getElem_map, htask', decide_eq_true_eq]
      intro hwaiting
      have hmem : s.fuzzTasks[i] ∈ s.pool.queue := by
        rw [hstaged.sound.queued]
        cases hs : j'.status with
        | queued => simp [Pool.status, hj', hs]
        | pending =>
            obtain ⟨-, d, hd⟩ := hstaged.sound.waits s.fuzzTasks[i] (by simp [Pool.status, hj', hs])
            have hafter : j'.after = some d := by simpa [Pool.after, hj'] using hd
            have := hlined.after _ j' hj' (by simp [hafter])
            simp [happ', App.phase] at this
        | _ => simp [hs, loopStatus] at hwaiting
      have hsorted := hlined.queue hrank
      rw [first] at hmem hsorted
      rcases List.mem_cons.mp hmem with heq | hrest
      · omega
      · have := List.rel_of_pairwise_cons hsorted hrest
        omega
  have hfirst : (loopState args pipeline s).fuzzTasks.findIdx? (fun t => t.status = .queued) =
      some k := hleast
  have hidle : Campaign.runningCount (loopState args pipeline s).fuzzTasks < args.pipes :=
    (runningCount_loop_le hstaged hlined).trans_lt idle
  simp only [Campaign.step, startStep, hfirst, hidle, if_true, hs']
  rfl

/-! ## Every step of the campaign is at most one step of the loop -/

theorem loopState_eq {s s' : State} (hentered : s'.stage.entered = s.stage.entered)
    (hpc : s'.stage.pc = s.stage.pc) (hqueue : s'.fuzzQueue = s.fuzzQueue)
    (hpipes : s'.pipes = s.pipes)
    (htasks : s'.fuzzTasks.map (fuzzTask s'.pool) = s.fuzzTasks.map (fuzzTask s.pool)) :
    loopState args pipeline s' = loopState args pipeline s := by
  simp only [loopState, hentered, hpc, hqueue, hpipes, htasks]

theorem Staged.finish {s s' : State} (h : Staged holds args.pipes s) {k index : ℕ}
    (hk : s.fuzzTasks[k]? = some index) {j : Job App} (hj : s.pool.jobs[index]? = some j)
    (hrunning : j.status = .running)
    (hs' : loopState args pipeline s' = { loopState args pipeline s with
      fuzzTasks := Campaign.setStatus (s.fuzzTasks.map (fuzzTask s.pool)) k .done }) :
    Campaign.step args.pipes (loopState args pipeline s) (.finish k) =
      some (loopState args pipeline s') := by
  obtain ⟨j', p, pipeId, hj', -, htask⟩ := exists_fuzzTask h (List.mem_of_getElem? hk)
  obtain rfl : j = j' := Option.some.inj (hj.symm.trans hj')
  have hvisited : (loopState args pipeline s).fuzzTasks[k]? =
      some ⟨p.toEntry, pipeId, .running⟩ := by
    simp [loopState, hk, htask, hrunning, loopStatus]
  simp only [Campaign.step, finishStep, hvisited, if_true, hs']
  rfl

theorem Lined.pool_refines {s : State} (hstaged : Staged holds args.pipes s) (hlined : Lined s)
    {a : PoolAction} {pool : Pool App} (move : Pool.Move args.pipes s.pool a pool)
    (targets : Finset (String × String)) :
    loopState args pipeline { s with pool, targets } = loopState args pipeline s ∨
      ∃ a', Campaign.step args.pipes (loopState args pipeline s) a' =
        some (loopState args pipeline { s with pool, targets }) := by
  have hother {index : ℕ} (hindex : index ∉ s.fuzzTasks) (next : JobStatus) (queue : List ℕ) :
      loopState args pipeline { s with
        pool := ⟨Pool.setStatus s.pool.jobs index next, queue⟩, targets } =
      loopState args pipeline s :=
    loopState_eq rfl rfl rfl rfl (map_fuzzTask_of_notMem hindex next queue)
  have hfuzz {k index : ℕ} (hk : s.fuzzTasks[k]? = some index) (next : JobStatus)
      (queue : List ℕ) :
      loopState args pipeline { s with
        pool := ⟨Pool.setStatus s.pool.jobs index next, queue⟩, targets } =
      { loopState args pipeline s with
        fuzzTasks := Campaign.setStatus (s.fuzzTasks.map (fuzzTask s.pool)) k
          (loopStatus next) } := by
    obtain ⟨j, p, pipeId, hj, happ, -⟩ := exists_fuzzTask hstaged (List.mem_of_getElem? hk)
    simp only [loopState, map_fuzzTask_setStatus hlined hk hj happ]
  have hafter {index : ℕ} {j : Job App} (hj : s.pool.jobs[index]? = some j)
      {status : JobStatus} (hended : j.after.bind s.pool.status = some status) :
      index ∉ s.fuzzTasks := by
    intro hindex
    obtain ⟨j', p, pipeId, hj', happ, -⟩ := exists_fuzzTask hstaged hindex
    obtain rfl : j = j' := Option.some.inj (hj.symm.trans hj')
    have hphase := hlined.after index j hj (by rintro hnone; simp [hnone] at hended)
    simp [happ, App.phase] at hphase
  cases move with
  | launched index j waiting pending ended => exact .inl (hother (hafter waiting ended) _ _)
  | dropped index j waiting pending ended => exact .inl (hother (hafter waiting ended) _ _)
  | started index rest first idle =>
      by_cases hindex : index ∈ s.fuzzTasks
      · obtain ⟨k, hk⟩ := List.mem_iff_getElem?.mp hindex
        exact .inr ⟨.start, hlined.start hstaged hk first idle (hfuzz hk _ _)⟩
      · exact .inl (hother hindex _ _)
  | returned index j picked running ended =>
      by_cases hindex : index ∈ s.fuzzTasks
      · obtain ⟨k, hk⟩ := List.mem_iff_getElem?.mp hindex
        exact .inr ⟨.finish k, hstaged.finish hk picked running (hfuzz hk _ _)⟩
      · exact .inl (hother hindex _ _)
  | raised index j picked running =>
      by_cases hindex : index ∈ s.fuzzTasks
      · obtain ⟨k, hk⟩ := List.mem_iff_getElem?.mp hindex
        exact .inr ⟨.finish k, hstaged.finish hk picked running (hfuzz hk _ _)⟩
      · exact .inl (hother hindex _ _)

theorem Move.refines {s s' : State} {a : Action} (hstaged : Staged holds args.pipes s)
    (hlined : Lined s) (hloop : LoopInv args.pipes (pipeline.map Item.toEntry)
      (loopState args pipeline s)) (move : Move holds args pipeline s a s') :
    loopState args pipeline s' = loopState args pipeline s ∨
      ∃ a', Campaign.step args.pipes (loopState args pipeline s) a' =
        some (loopState args pipeline s') := by
  cases move with
  | built next p stage =>
      exact .inl (loopState_eq (by rw [stage]; rfl) (by rw [stage]; rfl) rfl rfl
        (map_fuzzTask_submit hstaged _ _))
  | traced next p stage =>
      exact .inl (loopState_eq (by rw [stage]; rfl) (by rw [stage]; rfl) rfl rfl
        (map_fuzzTask_submit hstaged _ _))
  | matched next waitTask p stage =>
      exact .inl (loopState_eq (by rw [stage]; rfl) (by rw [stage]; rfl) rfl rfl
        (map_fuzzTask_submit hstaged _ _))
  | triaged stage =>
      exact .inl (loopState_eq (by rw [stage]; rfl) (by rw [stage]; rfl) rfl rfl
        (map_fuzzTask_submit hstaged _ _))
  | summarized stage =>
      exact .inl (loopState_eq (by rw [stage]; rfl) (by rw [stage]; rfl) rfl rfl
        (map_fuzzTask_submit hstaged _ _))
  | builtAll next stage =>
      exact .inl (loopState_eq (by rw [stage]; rfl) (by rw [stage]; rfl) rfl rfl rfl)
  | tracedAll next stage =>
      exact .inl (loopState_eq (by rw [stage]; rfl) (by rw [stage]; rfl) rfl rfl rfl)
  | returned phase next task stage =>
      refine .inl (loopState_eq ?_ ?_ rfl rfl rfl) <;> rw [stage] <;> cases phase <;> rfl
  | raised => exact .inl rfl
  | arranged stage =>
      left
      simp [loopState, stage, Stage.entered, Stage.pc]
  | ended phase next stage future =>
      cases phase with
      | fuzz =>
          have hdone : ∀ t ∈ (loopState args pipeline s).fuzzTasks, t.status = .done := by
            intro t ht
            obtain ⟨index, hindex, rfl⟩ := List.mem_map.mp ht
            obtain ⟨j, p, pipeId, hj, -, htask⟩ := exists_fuzzTask hstaged hindex
            have hall : (s.tasks .fuzz).take next = s.fuzzTasks :=
              List.take_of_length_le (List.getElem?_eq_none_iff.mp future)
            have := hstaged.awaited .fuzz next stage index (hall ▸ hindex)
            rw [htask]
            simp [Pool.status, hj] at this
            simp [this, loopStatus]
          refine .inr ⟨.drained, ?_⟩
          have hpc : (loopState args pipeline s).pc = .drain := by simp [loopState, stage, Stage.pc]
          simp only [Campaign.step]
          rw [if_pos ⟨hpc, hdone⟩]
          simp [loopState, stage, Stage.entered, Stage.pc, Phase.following]
      | _ =>
          exact .inl (loopState_eq (by rw [stage]; rfl) (by rw [stage]; rfl) rfl rfl rfl)
  | left stage ended =>
      refine .inr ⟨.leave, ?_⟩
      simp [Campaign.step, loopState, stage, Stage.entered, Stage.pc, ended]
  | slept stage none =>
      refine .inr ⟨.sleep, ?_⟩
      simp [Campaign.step, loopState, stage, Stage.entered, Stage.pc, none]
  | resumed stage some =>
      refine .inr ⟨.resume, ?_⟩
      simp [Campaign.step, loopState, stage, Stage.entered, Stage.pc, some]
  | scanned index stage future =>
      have hindex : index = s.fuzzTasks.length := by
        have := hloop.scanning index (by simp [loopState, stage, Stage.pc])
        have := List.getElem?_eq_none_iff.mp future
        simp only [loopState, List.length_map] at *
        omega
      refine .inr ⟨.rescan, ?_⟩
      simp [Campaign.step, loopState, stage, Stage.entered, Stage.pc, hindex]
  | polled index task stage future done =>
      obtain ⟨j, p, pipeId, hj, happ, htask⟩ :=
        exists_fuzzTask hstaged (List.mem_of_getElem? future)
      have hstatus : j.status = .done := by simpa [Pool.status, hj] using done
      refine .inr ⟨.poll, ?_⟩
      simp [Campaign.step, pollStep, loopState, stage, Stage.entered, Stage.pc, future, htask,
        hstatus, loopStatus, hj, happ, App.result, Task.result]
  | passed index task stage future undone =>
      obtain ⟨j, p, pipeId, hj, -, htask⟩ :=
        exists_fuzzTask hstaged (List.mem_of_getElem? future)
      have hundone : loopStatus j.status ≠ .done := by
        have := undone j.status (by simp [Pool.status, hj])
        cases hs : j.status <;> simp_all [loopStatus, JobStatus.finished]
      refine .inr ⟨.poll, ?_⟩
      simp [Campaign.step, pollStep, loopState, stage, Stage.entered, Stage.pc, future, htask,
        hundone]
  | submitted p pipeId stage last free =>
      refine .inr ⟨.submit pipeId, ?_⟩
      have hnew : fuzzTask (s.pool.submit holds (.fuzz p pipeId) none) s.pool.jobs.length =
          ⟨p.toEntry, pipeId, .queued⟩ := by
        simp [fuzzTask, Pool.submit, loopStatus]
      simp [Campaign.step, Campaign.submitStep, loopState, stage, Stage.entered, Stage.pc, last,
        free, hnew, map_fuzzTask_submit hstaged, List.map_dropLast]
  | pooled a copied pool move => exact hlined.pool_refines hstaged move _

theorem reachable_refines (hpipes : 0 < args.pipes) {targets : Finset (String × String)}
    {s : State} (h : (runCampaign holds args pipeline targets).Reachable s) :
    Staged holds args.pipes s ∧ Lined s ∧
      (Campaign.runCampaign args.pipes (pipeline.map Item.toEntry)).Reachable
        (loopState args pipeline s) := by
  refine Machine.Reachable.invariant (P := fun s => Staged holds args.pipes s ∧ Lined s ∧
    (Campaign.runCampaign args.pipes (pipeline.map Item.toEntry)).Reachable
      (loopState args pipeline s)) ?_ ?_ h
  · refine ⟨reachable_staged (Machine.Reachable.init _), ?_, Machine.Reachable.init _⟩
    constructor <;> simp [runCampaign, Pool.empty]
  · rintro s a s' ⟨hstaged, hlined, hreached⟩ hstep
    have move := step_move hstep
    refine ⟨hstaged.move move, hlined.move hstaged move, ?_⟩
    rcases move.refines hstaged hlined (reachable_loopInv hpipes hreached) with hsame | ⟨a', ha'⟩
    · exact hsame ▸ hreached
    · exact hreached.step ha'

theorem Lined.disjoint {workers : ℕ} {s : State} (hstaged : Staged holds args.pipes s)
    (hlined : Lined s) (h : Exclusive workers (loopState args pipeline s)) {i k : ℕ} (hlt : i < k)
    {x y : Job App} {p q : Item} {idx idy : ℕ} (hx : s.pool.jobs[i]? = some x)
    (hy : s.pool.jobs[k]? = some y) (hxapp : x.app = .fuzz p idx) (hyapp : y.app = .fuzz q idy)
    (hxrun : x.status = .running) (hyrun : y.status = .running) :
    Disjoint (cpuWindow workers idx) (cpuWindow workers idy) := by
  have hi : i ∈ s.fuzzTasks := by
    have := hstaged.listed i x hx
    rwa [hxapp] at this
  have hk : k ∈ s.fuzzTasks := by
    have := hstaged.listed k y hy
    rwa [hyapp] at this
  obtain ⟨a, ha, rfl⟩ := List.getElem_of_mem hi
  obtain ⟨b, hb, rfl⟩ := List.getElem_of_mem hk
  have hab : a < b := by
    by_contra hle
    rcases (not_lt.mp hle).lt_or_eq with hba | rfl
    · exact absurd (List.pairwise_iff_getElem.mp hlined.tasks b a hb ha hba) (by omega)
    · exact lt_irrefl _ hlt
  have := List.pairwise_iff_getElem.mp h a b (by simpa [loopState] using ha)
    (by simpa [loopState] using hb) hab
  simp only [loopState, List.getElem_map, fuzzTask_eq hx hxapp, fuzzTask_eq hy hyapp, hxrun, hyrun,
    loopStatus, forall_const] at this
  exact this.2

end

/--
Seen through its fuzzers, every reachable state of a campaign is a reachable
state of the loop alone.  With a pipe for every entry, no two fuzzers of the
campaign ever share a CPU.
-/
theorem campaign_refines_loop (holds : Bool) (args : Args) (pipeline : List Item)
    (targets : Finset (String × String)) (hpipes : 0 < args.pipes) {s : State}
    (h : (runCampaign holds args pipeline targets).Reachable s) :
    (Campaign.runCampaign args.pipes (pipeline.map Item.toEntry)).Reachable
      (loopState args pipeline s) ∧
    (pipeline.length ≤ args.pipes → ∀ (workers i k : ℕ) (x y : Job App) (p q : Item) (idx idy : ℕ),
      s.pool.jobs[i]? = some x → s.pool.jobs[k]? = some y → i ≠ k →
      x.app = .fuzz p idx → y.app = .fuzz q idy → x.status = .running → y.status = .running →
      Disjoint (cpuWindow workers idx) (cpuWindow workers idy)) := by
  obtain ⟨hstaged, hlined, hreached⟩ := reachable_refines hpipes h
  refine ⟨hreached, fun hle workers i k x y p q idx idy hx hy hne hxapp hyapp hxrun hyrun => ?_⟩
  have hexclusive : Exclusive workers (loopState args pipeline s) :=
    (pipesSafe_of_le workers (by simpa using hle) hreached).1
  rcases Nat.lt_or_gt_of_ne hne with hlt | hlt
  · exact hlined.disjoint hstaged hexclusive hlt hx hy hxapp hyapp hxrun hyrun
  · exact (hlined.disjoint hstaged hexclusive hlt hy hx hyapp hxapp hyrun hxrun).symm

theorem campaign_refines_loop_pair :
    ∃ s, (pairCampaign true).Reachable s ∧ s.pool.runningCount = 2 ∧
      (Campaign.runCampaign 2 [acpiHarness.toEntry, pciHarness.toEntry]).Reachable
        (loopState ⟨2, false⟩ [acpiHarness, pciHarness] s) ∧
      Disjoint (cpuWindow 16 0) (cpuWindow 16 1) := by
  obtain ⟨s, hs, hjobs⟩ := fuzzingSchedule_fuzzes
  obtain ⟨hloop, hdisjoint⟩ :=
    campaign_refines_loop true ⟨2, false⟩ [acpiHarness, pciHarness] ∅ (by decide) hs
  have hjob : ∀ (i : ℕ) app status,
      (s.pool.jobs.map fun j : Job App => (j.app, j.status))[i]? = some (app, status) →
      ∃ j : Job App, s.pool.jobs[i]? = some j ∧ j.app = app ∧ j.status = status := by
    simp
  obtain ⟨x, hx, hxapp, hxrun⟩ := hjob 2 (.fuzz pciHarness 0) .running (by rw [hjobs]; rfl)
  obtain ⟨y, hy, hyapp, hyrun⟩ := hjob 3 (.fuzz acpiHarness 1) .running (by rw [hjobs]; rfl)
  have hcount : (s.pool.jobs.map fun j => (j.app, j.status)).countP (·.2 = .running) = 2 := by
    rw [hjobs]
    rfl
  refine ⟨s, hs, ?_, hloop,
    hdisjoint (by decide) 16 2 3 x y _ _ 0 1 hx hy (by decide) hxapp hyapp hxrun hyrun⟩
  rw [List.countP_map] at hcount
  exact hcount

end TdvfFuzz.Campaign.Pipeline
