import Mathlib.Order.Bounds.Basic
import TdvfFuzz.KaflStats.Script

/-!
# Findings by mutation methods

The yield of a group is the count of the method of the group that is listed
last.  It is that of the whole group only if the others found nothing.
-/

namespace TdvfFuzz.KaflStats

open TdvfFuzz.Foundation

/-! ## Visiting the nodes -/

/-- The latest time of a node with this exit reason, or zero if there is none. -/
def Latest (nodes : List Node) (reason : Text) (time : ℚ≥0) : Prop :=
  IsGreatest (insert 0 {t | ∃ node ∈ nodes, node.exitReason = reason ∧ node.time = t}) time

theorem latest_nil (reason : Text) : Latest [] reason 0 := by
  simp [Latest]

theorem Latest.concat {nodes : List Node} {reason : Text} {time : ℚ≥0}
    (h : Latest nodes reason time) (node : Node) :
    Latest (nodes ++ [node]) reason
      (if reason = node.exitReason then max time node.time else time) := by
  have hset : {t | ∃ other ∈ nodes ++ [node], other.exitReason = reason ∧ other.time = t} =
      {t | ∃ other ∈ nodes, other.exitReason = reason ∧ other.time = t} ∪
        {t | node.exitReason = reason ∧ node.time = t} := by
    ext t
    simp only [List.mem_append, List.mem_singleton, Set.mem_ofPred_eq, Set.mem_union]
    grind
  unfold Latest
  rw [hset, ← Set.insert_union]
  by_cases hreason : reason = node.exitReason
  · subst hreason
    have hsingle : {t | node.exitReason = node.exitReason ∧ node.time = t} = {node.time} := by
      ext t
      simp [eq_comm]
    rw [if_pos rfl, hsingle]
    exact h.union isGreatest_singleton
  · have hempty : {t | node.exitReason = reason ∧ node.time = t} = ∅ := by
      simp [Ne.symm hreason]
    rw [if_neg hreason, hempty, Set.union_empty]
    exact h

structure Visited (nodes : List Node) (ret : Aggregate) : Prop where
  reasons : ret.lastFound.keys = exitReasons
  latest : ∀ reason, Latest nodes reason (ret.lastFound.getD reason 0)
  states : ret.favStates.values.sum + ret.normStates.values.sum =
    nodes.countP (·.exitReason = regular)
  yield : ret.yield = .empty

theorem getD_collect_zero (reasons : List Text) (reason : Text) :
    (Dict.collect (reasons.map fun r => (r, (0 : ℚ≥0)))).getD reason 0 = 0 := by
  induction reasons using List.reverseRecOn with
  | nil => rfl
  | append_singleton reasons last ih =>
      rw [List.map_append, List.map_singleton, Dict.collect_concat, Dict.getD_set, ih, ite_self]

theorem visited_initial : Visited [] initialAggregate where
  reasons := by decide
  latest reason := by
    rw [initialAggregate, getD_collect_zero]
    exact latest_nil reason
  states := rfl
  yield := rfl

theorem sum_countState (states : Dict Text ℤ) (state : Text) :
    (countState states state).values.sum = states.values.sum + 1 :=
  states.sum_values_set state 1

theorem Visited.set_lastFound {nodes : List Node} {ret : Aggregate} {node : Node} {lastFound : ℚ≥0}
    (h : Visited nodes ret) (hlast : ret.lastFound.get? node.exitReason = some lastFound) :
    (ret.lastFound.set node.exitReason (max lastFound node.time)).keys = exitReasons ∧
      ∀ reason, Latest (nodes ++ [node]) reason
        ((ret.lastFound.set node.exitReason (max lastFound node.time)).getD reason 0) := by
  have hkey : node.exitReason ∈ ret.lastFound.keys := Dict.exists_get?_iff.mp ⟨_, hlast⟩
  have hgetD : ret.lastFound.getD node.exitReason 0 = lastFound := Dict.getD_of_get? hlast 0
  refine ⟨(Dict.keys_set_of_mem hkey).trans h.reasons, fun reason => ?_⟩
  have hconcat := (h.latest reason).concat node
  rw [Dict.getD_set]
  split
  case isTrue hreason => rwa [if_pos hreason, hreason, hgetD, ← hreason] at hconcat
  case isFalse hreason => rwa [if_neg hreason] at hconcat

theorem Visited.visitNode {nodes : List Node} {ret ret' : Aggregate} {node : Node}
    (h : Visited nodes ret) (hvisit : visitNode ret node = .ok ret') :
    Visited (nodes ++ [node]) ret' := by
  have hstates := h.states
  unfold KaflStats.visitNode at hvisit
  split at hvisit
  case h_1 => contradiction
  case h_2 lastFound hlast =>
    obtain ⟨hreasons, hlatest⟩ := h.set_lastFound hlast
    split at hvisit
    case isTrue hregular =>
      have hcount : (nodes ++ [node]).countP (·.exitReason = regular) =
          nodes.countP (·.exitReason = regular) + 1 := by
        simp [hregular]
      -- the node is counted among the favorites or among the others
      split at hvisit <;>
      · obtain rfl := Except.ok.inj hvisit
        refine ⟨hreasons, hlatest, ?_, h.yield⟩
        simp only [sum_countState, hcount]
        omega
    case isFalse hregular =>
      obtain rfl := Except.ok.inj hvisit
      refine ⟨hreasons, hlatest, ?_, h.yield⟩
      simpa [hregular] using hstates

theorem Visited.exists_visitNode {nodes : List Node} {ret : Aggregate} {node : Node}
    (h : Visited nodes ret) (hnode : node.exitReason ∈ exitReasons) :
    ∃ ret', KaflStats.visitNode ret node = .ok ret' := by
  obtain ⟨lastFound, hlast⟩ := Dict.exists_get?_iff.mpr (h.reasons ▸ hnode)
  simp only [KaflStats.visitNode, hlast]
  split <;> [split <;> exact ⟨_, rfl⟩; exact ⟨_, rfl⟩]

theorem visited_foldlM {nodes : List Node} {ret : Aggregate}
    (h : nodes.foldlM visitNode initialAggregate = .ok ret) : Visited nodes ret :=
  foldlM_induction visited_initial (fun hvisited hvisit => hvisited.visitNode hvisit) h

theorem exists_foldlM_visitNode {nodes : List Node}
    (h : ∀ node ∈ nodes, node.exitReason ∈ exitReasons) :
    ∃ ret, nodes.foldlM visitNode initialAggregate = .ok ret ∧ Visited nodes ret := by
  refine exists_foldlM_ok visited_initial fun node hnode _ _ hvisited => ?_
  obtain ⟨ret, hvisit⟩ := hvisited.exists_visitNode (h node hnode)
  exact ⟨ret, hvisit, hvisited.visitNode hvisit⟩

/-! ## Visiting the yields -/

def grouped (entries : List (Text × ℕ)) : List (Text × ℕ) :=
  entries.map fun entry => (methods.getD entry.1 [], entry.2)

theorem foldlM_visitYield {entries : List (Text × ℕ)} (ret : Aggregate)
    (h : ∀ entry ∈ entries, entry.1 ∈ methods.keys) :
    entries.foldlM visitYield ret = .ok { ret with
      yield := (grouped entries).foldl (fun d entry => d.set entry.1 entry.2) ret.yield } := by
  induction entries generalizing ret with
  | nil => rfl
  | cons entry rest ih =>
      have hgroup : methods.get? entry.1 = some (methods.getD entry.1 []) :=
        Dict.get?_of_mem (h entry (by simp)) []
      simp only [List.foldlM_cons, visitYield, hgroup, bind_ok]
      rw [ih _ fun other hother => h other (by simp [hother])]
      simp only [grouped, List.map_cons, List.foldl_cons]

theorem foldlM_visitYield_states {entries : List (Text × ℕ)} {ret ret' : Aggregate}
    (h : entries.foldlM visitYield ret = .ok ret') :
    ret'.favStates = ret.favStates ∧ ret'.normStates = ret.normStates ∧
      ret'.lastFound = ret.lastFound := by
  refine foldlM_induction (P := fun _ ret' => ret'.favStates = ret.favStates ∧
    ret'.normStates = ret.normStates ∧ ret'.lastFound = ret.lastFound) ⟨rfl, rfl, rfl⟩ ?_ h
  intro _ _ _ entry hstates hvisit
  unfold visitYield at hvisit
  split at hvisit
  case h_1 => contradiction
  case h_2 => exact Except.ok.inj hvisit ▸ hstates

/-! ## Conservation -/

def groupTotal (stats : Stats) (group : Text) : ℕ :=
  ((stats.yield.entries.filter fun entry => methods.get? entry.1 = some group).map Prod.snd).sum

structure Conserved (stats : Stats) (ret : Aggregate) : Prop where
  groups : ∀ group, ret.yield.getD group 0 = groupTotal stats group
  total : ret.yield.values.sum = stats.yield.values.sum
  latest : ∀ reason ∈ exitReasons,
    ∃ time, ret.lastFound.get? reason = some time ∧ Latest stats.nodes.values reason time

/-- A method with findings is listed behind the others of its group. -/
def LastInGroup (stats : Stats) : Prop :=
  stats.yield.entries.Pairwise fun entry later =>
    methods.get? entry.1 = methods.get? later.1 → entry.2 = 0

section

variable {stats : Stats} (hmethods : ∀ entry ∈ stats.yield.entries, entry.1 ∈ methods.keys)

include hmethods

theorem groupTotal_eq (group : Text) :
    groupTotal stats group = Dict.sumAt (grouped stats.yield.entries) group := by
  have hfilter : (stats.yield.entries.filter fun entry => methods.get? entry.1 = some group) =
      stats.yield.entries.filter fun entry => methods.getD entry.1 [] = group := by
    refine List.filter_congr fun entry hentry => ?_
    simp only [Dict.get?_of_mem (hmethods entry hentry) [], Option.some.injEq]
  rw [groupTotal, hfilter, Dict.sumAt, grouped, List.filter_map, List.map_map]
  rfl

theorem lastInGroup_iff :
    LastInGroup stats ↔ (grouped stats.yield.entries).Pairwise fun entry later =>
      entry.1 = later.1 → entry.2 = 0 := by
  rw [grouped, List.pairwise_map]
  refine List.Pairwise.iff_of_mem fun {entry later} hentry hlater => ?_
  rw [Dict.get?_of_mem (hmethods entry hentry) [], Dict.get?_of_mem (hmethods later hlater) [],
    Option.some.injEq]

end

/-- The summary conserves the findings unless a group goes on after some of them. -/
theorem aggregate_conserves_iff (stats : Stats)
    (hreasons : ∀ node ∈ stats.nodes.values, node.exitReason ∈ exitReasons)
    (hmethods : ∀ entry ∈ stats.yield.entries, entry.1 ∈ methods.keys) :
    ∃ ret, statsAggregate stats = .ok ret ∧ (Conserved stats ret ↔ LastInGroup stats) := by
  obtain ⟨visited, hvisited, hinv⟩ := exists_foldlM_visitNode hreasons
  refine ⟨{ visited with yield := .collect (grouped stats.yield.entries) }, ?_, ?_⟩
  · rw [statsAggregate, hvisited, bind_ok, foldlM_visitYield _ hmethods, hinv.yield]
    rfl
  · rw [lastInGroup_iff hmethods, ← Dict.collect_sums_iff]
    constructor
    · intro h key
      rw [← groupTotal_eq hmethods]
      exact h.groups key
    · intro h
      refine ⟨fun group => (h group).trans (groupTotal_eq hmethods group).symm, ?_, ?_⟩
      · rw [Dict.sum_values_collect (Dict.collect_sums_iff.mp h), grouped, List.map_map]
        rfl
      · intro reason hreason
        have hkey : reason ∈ visited.lastFound.keys := hinv.reasons ▸ hreason
        exact ⟨_, Dict.get?_of_mem hkey 0, hinv.latest reason⟩

def crash : Text := "crash".toList

def seedNode : Node := ⟨regular, 12, "final".toList, [3, 7]⟩

def trimNode : Node := ⟨regular, 30, "trim".toList, []⟩

def crashNode : Node := ⟨crash, 20, "final".toList, []⟩

def slowWorker : Worker := ⟨8⟩

def quickWorker : Worker := ⟨3⟩

def spreadStats : Stats where
  numWorkers := 2
  findings := .collect [(regular, 2), (crash, 1)]
  yield := .collect [("afl_flip_1/1".toList, 0), ("import".toList, 2), ("afl_flip_2/1".toList, 3)]
  totalExecs := 100
  runtime := slowWorker.runTime
  workers := .collect [(0, slowWorker), (1, quickWorker)]
  nodes := .collect [(1, seedNode), (2, trimNode), (3, crashNode)]
  execs := 12
  pathsTotal := 3

theorem aggregate_conserves_spread :
    ∃ ret, statsAggregate spreadStats = .ok ret ∧ Conserved spreadStats ret := by
  obtain ⟨ret, haggregate, hconserved⟩ :=
    aggregate_conserves_iff spreadStats (by decide) (by decide)
  refine ⟨ret, haggregate, hconserved.mpr ?_⟩
  unfold LastInGroup
  decide

def flipStats : Stats :=
  { spreadStats with
    yield := .collect [("afl_flip_1/1".toList, 2), ("afl_flip_2/1".toList, 3)] }

theorem flips_overwritten :
    (∀ node ∈ flipStats.nodes.values, node.exitReason ∈ exitReasons) ∧
      (∀ entry ∈ flipStats.yield.entries, entry.1 ∈ methods.keys) ∧
      ∃ ret, statsAggregate flipStats = .ok ret ∧ ret.yield.getD "afl_flip".toList 0 = 3 ∧
        groupTotal flipStats "afl_flip".toList = 5 ∧ ¬ Conserved flipStats ret := by
  refine ⟨by decide, by decide, ⟨.collect [("final".toList, 1)], .collect [("trim".toList, 1)],
    .collect [(regular, 30), (crash, 20), ("kasan".toList, 0), ("timeout".toList, 0)],
    .collect [("afl_flip".toList, 3)]⟩, rfl, by decide, by decide, fun h => ?_⟩
  exact absurd (h.groups "afl_flip".toList) (by decide)

end TdvfFuzz.KaflStats
