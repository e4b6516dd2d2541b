import Mathlib.Algebra.Order.Floor.Semifield
import TdvfFuzz.KaflStats.Yields

/-!
# The nodes of a corpus

The fuzzer numbers its nodes from one, the loader counts from zero.  The last
node is missing from every summary.
-/

namespace TdvfFuzz.KaflStats

open TdvfFuzz.Foundation

/-! ## Names of node files -/

theorem ofDigitChars_leftpad (width n : ℕ) :
    Nat.ofDigitChars 10 ((Nat.toDigits 10 n).leftpad width '0') 0 = n := by
  rw [List.leftpad, Nat.ofDigitChars_append, Nat.ofDigitChars_replicate_zero, mul_zero,
    Nat.ofDigitChars_ten_toDigits]

theorem nodeName_injective : Function.Injective nodeName := by
  intro n m h
  have hdigits := List.append_cancel_left h
  rw [← ofDigitChars_leftpad 5 n, hdigits, ofDigitChars_leftpad]

/-! ## Loading -/

section

variable {α : Type} (file : ℕ → Option α)

theorem entries_loadRange (count : ℕ) :
    (loadRange count file).entries =
      (List.range count).filterMap fun num => (file num).map (num, ·) := by
  induction count with
  | zero => rfl
  | succ count ih =>
      have hkeys : count ∉ (loadRange count file).keys := by
        rw [Dict.keys, ih, List.mem_map]
        rintro ⟨entry, hentry, rfl⟩
        obtain ⟨num, hnum, hload⟩ := List.mem_filterMap.mp hentry
        obtain ⟨contents, -, rfl⟩ := Option.map_eq_some_iff.mp hload
        exact absurd (List.mem_range.mp hnum) (lt_irrefl num)
      rw [List.range_succ, List.filterMap_append, ← ih, loadRange, List.range_succ,
        List.foldl_append, List.foldl_cons, List.foldl_nil, ← loadRange]
      cases hfile : file count with
      | none => simp [hfile]
      | some contents =>
          simp only [List.filterMap_cons, hfile, Option.map_some, List.filterMap_nil]
          exact Dict.entries_set_of_not_mem contents hkeys

theorem values_loadRange (count : ℕ) :
    (loadRange count file).values = (List.range count).filterMap file := by
  rw [Dict.values, entries_loadRange, List.map_filterMap]
  simp

theorem mem_keys_loadRange {count num : ℕ} :
    num ∈ (loadRange count file).keys ↔ num < count ∧ (file num).isSome := by
  simp only [Dict.keys, entries_loadRange, List.mem_map, List.mem_filterMap, List.mem_range,
    Option.map_eq_some_iff, Option.isSome_iff_exists]
  constructor
  · rintro ⟨_, ⟨num, hnum, contents, hcontents, rfl⟩, rfl⟩
    exact ⟨hnum, contents, hcontents⟩
  · rintro ⟨hnum, contents, hcontents⟩
    exact ⟨_, ⟨num, hnum, contents, hcontents, rfl⟩, rfl⟩

end

/-! ## The corpus of a working directory -/

def Workdir.node (workdir : Workdir) (nid : ℕ) : Option Node := workdir.metadata (nodeName nid)

def Workdir.numNodes (workdir : Workdir) : ℕ := workdir.stats.findings.values.sum

/-- The nodes from one on, as the fuzzer numbers them. -/
def Workdir.corpus (workdir : Workdir) (count : ℕ) : List Node :=
  (List.range' 1 count).filterMap workdir.node

/-- The metadata are those of the nodes from one on, and the findings count them. -/
structure Numbered (workdir : Workdir) : Prop where
  files : ∀ name, (workdir.metadata name).isSome ↔
    ∃ nid, 1 ≤ nid ∧ nid ≤ workdir.numNodes ∧ name = nodeName nid
  findings : ∀ entry ∈ workdir.stats.findings.entries,
    entry.2 = (workdir.corpus workdir.numNodes).countP (·.exitReason = entry.1)

theorem corpus_succ (workdir : Workdir) (count : ℕ) :
    workdir.corpus (count + 1) = workdir.corpus count ++ (workdir.node (count + 1)).toList := by
  rw [Workdir.corpus, List.range'_1_concat, List.filterMap_append, add_comm 1 count]
  cases h : workdir.node (count + 1) <;> simp [Workdir.corpus, h]

section

variable {α κ : Type} [DecidableEq κ] (f : α → κ) (xs : List α)

theorem countP_mem_cons {key : κ} {keys : List κ} (h : key ∉ keys) :
    xs.countP (f · ∈ key :: keys) = xs.countP (f · = key) + xs.countP (f · ∈ keys) := by
  induction xs with
  | nil => rfl
  | cons x xs ih =>
      simp only [List.countP_cons, ih]
      by_cases hx : f x = key
      · simp only [hx, h, List.mem_cons_self, decide_true, decide_false, if_true,
          Bool.false_eq_true, if_false]
        omega
      · simp only [hx, List.mem_cons, false_or, decide_false, Bool.false_eq_true, if_false]
        omega

theorem sum_countP {keys : List κ} (hnodup : keys.Nodup) :
    (keys.map fun key => xs.countP (f · = key)).sum = xs.countP (f · ∈ keys) := by
  induction keys with
  | nil => simp
  | cons key keys ih =>
      rw [List.nodup_cons] at hnodup
      rw [List.map_cons, List.sum_cons, ih hnodup.2, countP_mem_cons f xs hnodup.1]

theorem mem_keys_of_sum_countP {keys : List κ} (hnodup : keys.Nodup)
    (h : (keys.map fun key => xs.countP (f · = key)).sum = xs.length) :
    ∀ x ∈ xs, f x ∈ keys := by
  rw [sum_countP f xs hnodup, List.countP_eq_length] at h
  exact fun x hx => of_decide_eq_true (h x hx)

end

section

variable {workdir : Workdir} (numbered : Numbered workdir)

include numbered

theorem node_isSome_iff {nid : ℕ} :
    (workdir.node nid).isSome ↔ 1 ≤ nid ∧ nid ≤ workdir.numNodes := by
  rw [Workdir.node, numbered.files]
  constructor
  · rintro ⟨nid', hpos, hle, hname⟩
    exact nodeName_injective hname ▸ ⟨hpos, hle⟩
  · rintro ⟨hpos, hle⟩
    exact ⟨nid, hpos, hle, rfl⟩

theorem length_corpus {count : ℕ} (hcount : count ≤ workdir.numNodes) :
    (workdir.corpus count).length = count := by
  induction count with
  | zero => rfl
  | succ count ih =>
      obtain ⟨node, hnode⟩ := Option.isSome_iff_exists.mp
        ((node_isSome_iff numbered).mpr ⟨Nat.le_add_left 1 count, hcount⟩)
      rw [corpus_succ, List.length_append, ih (by omega), hnode]
      rfl

/-- Node zero does not exist, and the loader stops in front of the last node. -/
theorem values_loadRange_node {count : ℕ} (hcount : workdir.numNodes = count + 1) :
    (loadRange workdir.numNodes workdir.node).values = workdir.corpus count := by
  have hzero : workdir.node 0 = none := by
    rw [← Option.not_isSome_iff_eq_none, node_isSome_iff numbered]
    omega
  rw [values_loadRange, hcount, List.range_eq_range', List.range'_succ,
    List.filterMap_cons_none hzero]
  rfl

theorem findings_eq_countP (reason : Text) :
    workdir.stats.findings.getD reason 0 =
      (workdir.corpus workdir.numNodes).countP (·.exitReason = reason) := by
  by_cases hkey : reason ∈ workdir.stats.findings.keys
  · exact numbered.findings _ (Dict.mem_entries_of_get? (Dict.get?_of_mem hkey 0))
  · have hvalues : workdir.stats.findings.values = workdir.stats.findings.keys.map fun reason =>
        (workdir.corpus workdir.numNodes).countP (·.exitReason = reason) := by
      rw [Dict.values, Dict.keys, List.map_map]
      exact List.map_congr_left numbered.findings
    have hmem := mem_keys_of_sum_countP Node.exitReason (workdir.corpus workdir.numNodes)
      workdir.stats.findings.nodup
    rw [← Dict.keys, ← hvalues, length_corpus numbered le_rfl] at hmem
    have hzero : (workdir.corpus workdir.numNodes).countP (·.exitReason = reason) = 0 := by
      rw [List.countP_eq_zero]
      intro node hnode hreason
      exact hkey (of_decide_eq_true hreason ▸ hmem rfl node hnode)
    rw [hzero, Dict.getD_of_not_mem hkey]

end

/-! ## What the summary knows of the corpus -/

theorem sum_states {stats : Stats} {ret : Aggregate} (h : statsAggregate stats = .ok ret) :
    ret.favStates.values.sum + ret.normStates.values.sum =
      stats.nodes.values.countP (·.exitReason = regular) := by
  obtain ⟨visited, hnodes, hyields⟩ := bind_eq_ok.mp h
  obtain ⟨hfav, hnorm, -⟩ := foldlM_visitYield_states hyields
  rw [hfav, hnorm]
  exact (visited_foldlM hnodes).states

theorem processWorkdir_nodes {workdir : Workdir} {stats : Stats}
    (h : processWorkdir workdir = .ok stats) :
    stats.nodes = loadRange workdir.numNodes workdir.node := by
  simp only [processWorkdir] at h
  split at h
  case h_1 => contradiction
  case h_2 =>
    split at h
    case isTrue => contradiction
    case isFalse => exact Except.ok.inj h ▸ rfl

/-- Every node is among the statistics, and every regular one among the states. -/
structure Complete (workdir : Workdir) (stats : Stats) (ret : Aggregate) : Prop where
  nodes : ∀ nid, 1 ≤ nid → nid ≤ workdir.numNodes → nid ∈ stats.nodes.keys
  states : ret.favStates.values.sum + ret.normStates.values.sum =
    workdir.stats.findings.getD regular 0

/-- The statistics are complete for an empty corpus only, and so are the states
unless the last node is not a regular one. -/
theorem summary_complete_iff {workdir : Workdir} (numbered : Numbered workdir) {stats : Stats}
    {ret : Aggregate} (hstats : processWorkdir workdir = .ok stats)
    (hret : statsAggregate stats = .ok ret) :
    (Complete workdir stats ret ↔ workdir.numNodes = 0) ∧
      (ret.favStates.values.sum + ret.normStates.values.sum =
          workdir.stats.findings.getD regular 0 ↔
        ∀ node, workdir.node workdir.numNodes = some node → node.exitReason ≠ regular) := by
  have hnodes := processWorkdir_nodes hstats
  have hstates := sum_states hret
  rw [hnodes] at hstates
  cases hcount : workdir.numNodes with
  | zero =>
      have hnone : workdir.node 0 = none := by
        rw [← Option.not_isSome_iff_eq_none, node_isSome_iff numbered]
        omega
      have hregular : ret.favStates.values.sum + ret.normStates.values.sum =
          workdir.stats.findings.getD regular 0 := by
        rw [hstates, findings_eq_countP numbered, hcount]
        rfl
      exact ⟨iff_of_true ⟨fun nid hpos hle => by omega, hregular⟩ rfl,
        iff_of_true hregular (by simp [hnone])⟩
  | succ count =>
      have hmissing : ¬ Complete workdir stats ret := by
        intro h
        have hmem := h.nodes workdir.numNodes (by omega) le_rfl
        rw [hnodes] at hmem
        exact absurd ((mem_keys_loadRange _).mp hmem).1 (lt_irrefl _)
      obtain ⟨node, hnode⟩ := Option.isSome_iff_exists.mp
        ((node_isSome_iff numbered).mpr ⟨Nat.le_add_left 1 count, hcount.ge⟩)
      refine ⟨iff_of_false hmissing (by omega), ?_⟩
      rw [hstates, findings_eq_countP numbered, values_loadRange_node numbered hcount, hcount,
        corpus_succ, hnode]
      by_cases hregular : node.exitReason = regular <;> simp [hregular]

/-! ## A corpus whose last node is a crash -/

def crashWorkdir : Workdir where
  stats := ⟨2, .collect [(regular, 2), (crash, 1)], .collect [("import".toList, 2)], 100⟩
  workerStats name :=
    List.lookup name [(workerStatsName 0, slowWorker), (workerStatsName 1, quickWorker)]
  metadata name :=
    if name = nodeName 1 then some seedNode
    else if name = nodeName 2 then some trimNode
    else if name = nodeName 3 then some crashNode
    else none

theorem numbered_crash : Numbered crashWorkdir where
  files name := by
    have hcount : crashWorkdir.numNodes = 3 := by decide
    rw [hcount]
    constructor
    · intro h
      by_contra hother
      have hne : ∀ nid, 1 ≤ nid → nid ≤ 3 → name ≠ nodeName nid :=
        fun nid hpos hle hname => hother ⟨nid, hpos, hle, hname⟩
      simp [crashWorkdir, hne] at h
    · rintro ⟨nid, hpos, hle, rfl⟩
      obtain rfl | rfl | rfl : nid = 1 ∨ nid = 2 ∨ nid = 3 := by omega
      · rfl
      · rfl
      · rfl
  findings := by decide

def crashStats : Stats where
  toRecord := crashWorkdir.stats
  runtime := slowWorker.runTime
  workers := .collect [(0, slowWorker), (1, quickWorker)]
  nodes := .collect [(1, seedNode), (2, trimNode)]
  execs := 12
  pathsTotal := 3

theorem processWorkdir_crash : processWorkdir crashWorkdir = .ok crashStats := by
  have hworkers : loadRange crashWorkdir.stats.numWorkers
      (crashWorkdir.workerStats ∘ workerStatsName) = crashStats.workers := by
    rfl
  have hruntime : (crashStats.workers.values.map Worker.runTime).max? = some 8 := by
    rfl
  have hnodes : loadRange crashWorkdir.stats.findings.values.sum
      (crashWorkdir.metadata ∘ nodeName) = crashStats.nodes := by
    rfl
  have hexecs : ⌊(crashWorkdir.stats.totalExecs : ℚ≥0) / 8⌋₊ = 12 :=
    Nat.floor_div_eq_div crashWorkdir.stats.totalExecs 8
  simp only [processWorkdir, hworkers, hruntime, hnodes, hexecs, OfNat.ofNat_ne_zero, if_false]
  rfl

def crashAggregate : Aggregate :=
  ⟨.collect [("final".toList, 1)], .collect [("trim".toList, 1)],
    .collect [(regular, trimNode.time), (crash, 0), ("kasan".toList, 0), ("timeout".toList, 0)],
    .collect [("seed/import".toList, 2)]⟩

theorem summary_complete_crash :
    ¬ Complete crashWorkdir crashStats crashAggregate ∧
      crashAggregate.favStates.values.sum + crashAggregate.normStates.values.sum =
        crashWorkdir.stats.findings.getD regular 0 := by
  obtain ⟨hcomplete, hstates⟩ := summary_complete_iff numbered_crash processWorkdir_crash
    (show statsAggregate crashStats = .ok crashAggregate from rfl)
  refine ⟨fun h => absurd (hcomplete.mp h) (by decide), hstates.mpr fun node hnode => ?_⟩
  obtain rfl : crashNode = node := Option.some.inj hnode
  decide

/-! ## A corpus of one node -/

def singleNode : Node := ⟨regular, 10, "final".toList, []⟩

def singleWorkdir : Workdir where
  stats := ⟨1, .collect [(regular, 1)], .empty, 100⟩
  workerStats name := if name = workerStatsName 0 then some ⟨1⟩ else none
  metadata name := if name = nodeName 1 then some singleNode else none

theorem numbered_single : Numbered singleWorkdir where
  files name := by
    have hcount : singleWorkdir.numNodes = 1 := by decide
    rw [hcount]
    constructor
    · intro h
      by_cases hname : name = nodeName 1
      · exact ⟨1, le_rfl, le_rfl, hname⟩
      · simp [singleWorkdir, hname] at h
    · rintro ⟨nid, hpos, hle, rfl⟩
      obtain rfl : nid = 1 := by omega
      simp [singleWorkdir]
  findings := by decide

def singleStats : Stats where
  toRecord := singleWorkdir.stats
  runtime := 1
  workers := .collect [(0, ⟨1⟩)]
  nodes := .empty
  execs := 100
  pathsTotal := 1

theorem processWorkdir_single : processWorkdir singleWorkdir = .ok singleStats := by
  have hworkers : loadRange singleWorkdir.stats.numWorkers
      (singleWorkdir.workerStats ∘ workerStatsName) = singleStats.workers := by
    rfl
  have hruntime : (singleStats.workers.values.map Worker.runTime).max? = some 1 := by
    rfl
  have hnodes : loadRange singleWorkdir.stats.findings.values.sum
      (singleWorkdir.metadata ∘ nodeName) = .empty := by
    rfl
  have hexecs : ⌊(singleWorkdir.stats.totalExecs : ℚ≥0) / 1⌋₊ = 100 := by
    rw [div_one, Nat.floor_natCast]
    rfl
  simp only [processWorkdir, hworkers, hruntime, hnodes, hexecs, one_ne_zero, if_false]
  rfl

/-- The one node of the corpus is neither loaded nor counted. -/
theorem single_node_missing :
    Numbered singleWorkdir ∧ ∃ stats ret, processWorkdir singleWorkdir = .ok stats ∧
      statsAggregate stats = .ok ret ∧ 1 ∉ stats.nodes.keys ∧
      ret.favStates.values.sum + ret.normStates.values.sum = 0 ∧
      singleWorkdir.stats.findings.getD regular 0 = 1 :=
  ⟨numbered_single, singleStats, initialAggregate, processWorkdir_single, rfl, by decide, rfl, rfl⟩

end TdvfFuzz.KaflStats
