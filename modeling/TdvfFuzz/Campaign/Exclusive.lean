import Mathlib.Data.List.Nodup
import Mathlib.Data.Set.Lattice
import Mathlib.Order.CompletePartialOrder
import TdvfFuzz.Campaign.Scheduler

/-!
# Which campaigns keep their pipes exclusive

A pipe id is held by a job from its submission until it has finished.  The
scan over `fuzz_tasks` returns the id of every finished job it meets, also of
one whose id went to a later job, so exclusivity depends on never visiting
such a job; over all schedules that means never reusing an id.
-/

namespace TdvfFuzz.Campaign

open TdvfFuzz.Foundation

/-! ## What happens to the pipes -/

/-- A step, with those that only move the program counter as one. -/
inductive Effect (s : State) : Action → State → Prop
  | submitted (p : Entry) (pipeId : Nat)
      (guard : s.pc = .guard) (queued : s.fuzzQueue.getLast? = some p)
      (free : pipeId ∈ s.pipes) :
      Effect s (.submit pipeId) { s with
        fuzzQueue := s.fuzzQueue.dropLast
        pipes := s.pipes.erase pipeId
        fuzzTasks := s.fuzzTasks ++ [⟨p, pipeId, .queued⟩]
        pc := .wait }
  | returned (index : Nat) (t : Task)
      (scanning : s.pc = .scan index) (visited : s.fuzzTasks[index]? = some t)
      (done : t.status = .done) :
      Effect s .poll { s with
        pipes := insert t.result s.pipes, pc := .scan (index + 1) }
  | ran (a : Action) (index : Nat) (t : Task) (status : TaskStatus)
      (picked : s.fuzzTasks[index]? = some t) (live : t.status ≠ .done) :
      Effect s a { s with fuzzTasks := setStatus s.fuzzTasks index status }
  | moved (a : Action) (pc : Pc)
      (scan : ∀ index, pc = .scan index →
        s.pipes = ∅ ∨ ∃ before, s.pc = .scan before) :
      Effect s a { s with pc }

theorem Move.effect {s s' : State} {a : Action} (h : Move s a s') : Effect s a s' := by
  cases h with
  | submitted p pipeId guard last free => exact .submitted p pipeId guard last free
  | returned index t scanning visited done => exact .returned index t scanning visited done
  | started index t picked queued => exact .ran _ index t .running picked (by simp [queued])
  | finished index t picked running => exact .ran _ index t .done picked (by simp [running])
  | slept waiting none => exact .moved _ _ fun _ _ => .inl none
  | passed index t scanning visited undone => exact .moved _ _ fun _ _ => .inr ⟨index, scanning⟩
  | left | resumed | rescanned | drained => exact .moved _ _ (by simp)

/-! ## Held pipe ids -/

def holders (tasks : List Task) : List Nat :=
  (tasks.filter fun t => t.status ≠ .done).map Task.pipeId

@[simp] theorem holders_append (tasks more : List Task) :
    holders (tasks ++ more) = holders tasks ++ holders more := by
  simp [holders]

@[simp] theorem holders_submitted (p : Entry) (pipeId : Nat) :
    holders [⟨p, pipeId, .queued⟩] = [pipeId] := by
  simp [holders]

theorem mem_holders {tasks : List Task} {id : Nat} :
    id ∈ holders tasks ↔ ∃ t ∈ tasks, t.status ≠ .done ∧ t.pipeId = id := by
  simp [holders, and_assoc]

theorem holders_setStatus_sublist (tasks : List Task) (index : Nat) (t : Task)
    (status : TaskStatus) (picked : tasks[index]? = some t)
    (live : t.status ≠ .done) :
    (holders (setStatus tasks index status)).Sublist (holders tasks) := by
  induction tasks generalizing index with
  | nil => simp [setStatus]
  | cons first rest ih =>
      cases index with
      | zero =>
          simp only [List.getElem?_cons_zero, Option.some.injEq] at picked
          subst first
          by_cases hstatus : status = .done <;>
            simp [holders, setStatus, live, hstatus]
      | succ index =>
          have hrest := ih index (by simpa using picked)
          by_cases hfirst : first.status = .done
          · simpa [holders, setStatus, hfirst] using hrest
          · simpa [holders, setStatus, hfirst] using hrest

@[simp] theorem map_pipeId_setStatus (tasks : List Task) (index : Nat)
    (status : TaskStatus) :
    (setStatus tasks index status).map Task.pipeId = tasks.map Task.pipeId := by
  induction tasks generalizing index with
  | nil => simp [setStatus]
  | cons first rest ih =>
      cases index with
      | zero => simp [setStatus]
      | succ index => simpa [setStatus] using ih index

/-! ## The properties of a state -/

/-- Started, unfinished jobs hold different ids and disjoint CPU windows. -/
def Exclusive (workers : Nat) (s : State) : Prop :=
  s.fuzzTasks.Pairwise fun t u =>
    t.status = .running → u.status = .running →
      t.pipeId ≠ u.pipeId ∧
        Disjoint (cpuWindow workers t.pipeId) (cpuWindow workers u.pipeId)

/--
No id in `pipes` is held by an unfinished job.  Ids enter `pipes` only by
being put back, so this fails right after an id came back too early.
-/
def FreeUnheld (s : State) : Prop :=
  ∀ id ∈ s.pipes, id ∉ holders s.fuzzTasks

def PipesSafe (workers : Nat) (s : State) : Prop :=
  Exclusive workers s ∧ FreeUnheld s

theorem cpuWindow_disjoint {workers first second : Nat} (h : first ≠ second) :
    Disjoint (cpuWindow workers first) (cpuWindow workers second) := by
  rw [Set.disjoint_left]
  rintro cpu ⟨hfirst, hfirst'⟩ ⟨hsecond, hsecond'⟩
  rcases Nat.lt_or_gt_of_ne h with hlt | hlt
  · have := Nat.mul_le_mul_left workers (Nat.succ_le_of_lt hlt)
    rw [Nat.mul_succ] at this
    omega
  · have := Nat.mul_le_mul_left workers (Nat.succ_le_of_lt hlt)
    rw [Nat.mul_succ] at this
    omega

theorem exclusive_of_holders_nodup {workers : Nat} {s : State}
    (h : (holders s.fuzzTasks).Nodup) : Exclusive workers s := by
  rw [holders, List.Nodup, List.pairwise_map, List.pairwise_filter] at h
  apply h.imp
  intro t u hdistinct ht hu
  have hne : t.pipeId ≠ u.pipeId :=
    hdistinct (by simp [ht]) (by simp [hu])
  exact ⟨hne, cpuWindow_disjoint hne⟩

/-! ## Runs that never return a held id -/

/--
The scan does not visit a finished job whose id some unfinished job holds; a
condition on the state before the step.
-/
def VisitsUnheld (s : State) (a : Action) : Prop :=
  a = .poll → ∀ index t, s.pc = .scan index → s.fuzzTasks[index]? = some t →
    t.status = .done → t.result ∉ holders s.fuzzTasks

theorem visitsUnheld_iff_of_scan {s : State} {index : Nat} (scanning : s.pc = .scan index)
    (a : Action) : VisitsUnheld s a ↔ (a = .poll → ∀ t ∈ s.fuzzTasks[index]?,
      t.status = .done → t.result ∉ holders s.fuzzTasks) := by
  constructor
  · exact fun h ha t ht => h ha index t scanning ht
  · intro h ha index' t scanning' ht
    cases scanning.symm.trans scanning'
    exact h ha t ht

instance (s : State) (a : Action) : Decidable (VisitsUnheld s a) :=
  match hpc : s.pc with
  | .scan _ => decidable_of_iff' _ (visitsUnheld_iff_of_scan hpc a)
  | .guard | .wait | .drain | .finished => isTrue (by simp [VisitsUnheld, hpc])

def HoldersInv (s : State) : Prop :=
  (holders s.fuzzTasks).Nodup ∧ FreeUnheld s

theorem holdersInv_of_sublist {s : State} {tasks : List Task}
    (h : HoldersInv s) (hsub : (holders tasks).Sublist (holders s.fuzzTasks)) :
    HoldersInv { s with fuzzTasks := tasks } :=
  ⟨h.1.sublist hsub, fun id hid hmem => h.2 id hid (hsub.subset hmem)⟩

theorem holdersInv_effect {s s' : State} {a : Action} (h : HoldersInv s)
    (visits : VisitsUnheld s a) (effect : Effect s a s') : HoldersInv s' := by
  obtain ⟨hnodup, hfree⟩ := h
  cases effect with
  | submitted p pipeId guard queued free =>
      constructor
      · simp only [holders_append, holders_submitted]
        apply hnodup.append (List.nodup_singleton _)
        simpa using hfree pipeId free
      · intro id hid
        simp only [Finset.mem_erase] at hid
        simp only [holders_append, holders_submitted, List.mem_append,
          List.mem_singleton, not_or]
        exact ⟨hfree id hid.2, hid.1⟩
  | returned index t scanning visited done =>
      refine ⟨hnodup, fun id hid => ?_⟩
      rcases Finset.mem_insert.mp hid with rfl | hid
      · exact visits rfl index t scanning visited done
      · exact hfree id hid
  | ran a index t status picked live =>
      exact holdersInv_of_sublist ⟨hnodup, hfree⟩
        (holders_setStatus_sublist _ _ t status picked live)
  | moved a pc scan => exact ⟨hnodup, hfree⟩

theorem holdersInv_of_visitsUnheld {pipes : Nat} {pipeline : List Entry}
    {s : State} (h : (runCampaign pipes pipeline).ReachableBy VisitsUnheld s) :
    HoldersInv s :=
  h.invariant ⟨by simp [runCampaign, holders], by simp [runCampaign, FreeUnheld, holders]⟩
    fun _ _ _ hs visits enabled =>
      holdersInv_effect hs visits (step_move enabled).effect

theorem pipesSafe_of_visitsUnheld {pipes : Nat} {pipeline : List Entry}
    (workers : Nat) {s : State}
    (h : (runCampaign pipes pipeline).ReachableBy VisitsUnheld s) :
    PipesSafe workers s :=
  have hinv := holdersInv_of_visitsUnheld h
  ⟨exclusive_of_holders_nodup hinv.1, hinv.2⟩

/-! ## Campaigns that never reuse an id -/

/--
While harnesses are waiting, the free ids are exactly those never handed out,
so the waiting loop is entered with an empty set only when none is left over.
-/
structure FreshInv (pipes entries : Nat) (s : State) : Prop where
  total : s.fuzzQueue.length + s.fuzzTasks.length = entries
  fresh : (s.fuzzTasks.map Task.pipeId).Nodup
  unused : s.fuzzQueue ≠ [] →
    s.pipes = Finset.range pipes \ (s.fuzzTasks.map Task.pipeId).toFinset
  scanning : ∀ index, s.pc = .scan index → s.fuzzQueue = []

theorem freshInv_setStatus {pipes entries : Nat} {s : State}
    (h : FreshInv pipes entries s) (index : Nat) (status : TaskStatus) :
    FreshInv pipes entries
      { s with fuzzTasks := setStatus s.fuzzTasks index status } where
  total := by simpa [setStatus] using h.total
  fresh := by simpa using h.fresh
  unused := by simpa using h.unused
  scanning := h.scanning

/-- With at most as many entries as pipes, an exhausted set means an empty queue. -/
theorem queue_empty_of_no_pipes {pipes entries : Nat} {s : State}
    (h : FreshInv pipes entries s) (hle : entries ≤ pipes)
    (hnone : s.pipes = ∅) : s.fuzzQueue = [] := by
  by_contra hqueue
  have hused : Finset.range pipes ⊆ (s.fuzzTasks.map Task.pipeId).toFinset := by
    rw [← Finset.sdiff_eq_empty_iff_subset, ← h.unused hqueue, hnone]
  have hcard := Finset.card_le_card hused
  rw [Finset.card_range] at hcard
  have hlength := (s.fuzzTasks.map Task.pipeId).toFinset_card_le
  rw [List.length_map] at hlength
  have hpos := List.length_pos_iff.mpr hqueue
  have := h.total
  omega

theorem freshInv_effect {pipes entries : Nat} (hle : entries ≤ pipes)
    {s s' : State} {a : Action} (h : FreshInv pipes entries s)
    (effect : Effect s a s') : FreshInv pipes entries s' := by
  cases effect with
  | submitted p pipeId guard queued free =>
      have hqueue : s.fuzzQueue ≠ [] := by
        rintro hnil
        simp [hnil] at queued
      have hpipes := h.unused hqueue
      have hnew : pipeId ∉ s.fuzzTasks.map Task.pipeId := by
        rw [hpipes, Finset.mem_sdiff, List.mem_toFinset] at free
        exact free.2
      constructor
      case total =>
        have := h.total
        have := List.length_pos_iff.mpr hqueue
        simp
        omega
      case fresh =>
        rw [List.map_append]
        exact h.fresh.append (by simp) (by simpa using hnew)
      case unused =>
        intro _
        ext id
        simp only [hpipes, Finset.mem_erase, Finset.mem_sdiff, List.map_append,
          List.toFinset_append, Finset.mem_union, List.mem_toFinset,
          List.map_cons, List.map_nil, List.mem_singleton]
        tauto
      case scanning => simp
  | returned index t scanning visited done =>
      have hqueue := h.scanning index scanning
      exact ⟨h.total, h.fresh, fun hne => absurd hqueue hne, fun _ _ => hqueue⟩
  | ran a index t status picked live => exact freshInv_setStatus h index status
  | moved a pc scan =>
      refine ⟨h.total, h.fresh, h.unused, fun index hpc => ?_⟩
      rcases scan index hpc with hnone | ⟨before, hbefore⟩
      · have hqueue := queue_empty_of_no_pipes h hle hnone
        exact hqueue
      · exact h.scanning before hbefore

theorem visitsUnheld_of_fresh {s : State} (a : Action)
    (h : (s.fuzzTasks.map Task.pipeId).Nodup) : VisitsUnheld s a := by
  rintro - index t - visited done hheld
  obtain ⟨u, hu, hlive, hid⟩ := mem_holders.mp hheld
  obtain ⟨other, hother, rfl⟩ := List.getElem_of_mem hu
  obtain ⟨hindex, rfl⟩ := List.getElem?_eq_some_iff.mp visited
  have hsame : other = index := by
    apply (List.getElem?_inj (by simpa using hother) h).mp
    simpa [hother, hindex, Task.result] using hid
  subst hsame
  exact hlive done

theorem pipesSafe_of_le {pipes : Nat} {pipeline : List Entry} (workers : Nat)
    (hle : pipeline.length ≤ pipes) {s : State}
    (h : (runCampaign pipes pipeline).Reachable s) : PipesSafe workers s := by
  have hinv : FreshInv pipes pipeline.length s ∧ HoldersInv s := by
    refine Machine.Reachable.invariant
      (P := fun s => FreshInv pipes pipeline.length s ∧ HoldersInv s) ?_ ?_ h
    · exact ⟨⟨by simp [runCampaign], by simp [runCampaign],
        by simp [runCampaign], by simp [runCampaign]⟩,
        by simp [runCampaign, holders],
        by simp [runCampaign, FreeUnheld, holders]⟩
    · intro s a s' hs enabled
      have effect := (step_move enabled).effect
      exact ⟨freshInv_effect hle hs.1 effect,
        holdersInv_effect hs.2 (visitsUnheld_of_fresh a hs.1.fresh) effect⟩
  exact ⟨exclusive_of_holders_nodup hinv.2.1, hinv.2.2⟩

end TdvfFuzz.Campaign
