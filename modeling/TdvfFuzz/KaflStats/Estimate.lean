import Mathlib.Algebra.Order.BigOperators.Group.List
import Mathlib.Tactic.Linarith
import Mathlib.Tactic.FieldSimp
import TdvfFuzz.KaflStats.Yields

/-!
# Progress of a corpus

`estimate_done` weighs the finished favorites, the finished other nodes and the
crashes; `print_html` divides by the executions where the estimate is positive.
-/

namespace TdvfFuzz.KaflStats

open TdvfFuzz.Foundation

/-- The statistics with the fields that only the pages read. -/
structure Snapshot extends Stats where
  name : Text
  startTime : ℚ≥0
  favsTotal : ℕ
  numTimeout : ℕ
  numFunky : ℕ
  numReload : ℕ
  bytesInBitmap : ℕ
  deriving DecidableEq

/-! ## The estimate -/

/-- `d[key]` -/
def lookup {ν : Type} (d : Dict Text ν) (key : Text) : Except Error ν :=
  match d.get? key with
  | none => .error (.keyError key)
  | some value => .ok value

/-- `x / y` -/
def divide (x y : ℚ) : Except Error ℚ :=
  if y = 0 then .error .zeroDivisionError else .ok (x / y)

def final : Text := "final".toList

def estimateDone (s : Snapshot) (ret : Aggregate) : Except Error ℚ := do
  let regulars ← lookup s.findings regular
  let numFavs : ℤ := s.favsTotal
  let numNorms : ℤ := regulars - s.favsTotal
  if s.totalExecs = 0 ∨ numFavs + numNorms = 0 then .ok 0
  else do
    let doneFavs ← (if 0 < numFavs then divide (100 * ret.favStates.getD final 0) numFavs
      else .ok 0)
    let doneNorms ← (if 0 < numNorms then divide (100 * ret.normStates.getD final 0) numNorms
      else .ok 100)
    let crashes ← divide (s.pathsTotal - regulars) s.pathsTotal
    let crashFraction := crashes * 100
    .ok (7 / 10 * doneFavs + 2 / 10 * doneNorms + 1 / 10 * crashFraction)

/-! ## The page -/

/-- `int(..)` of a number that need not be positive. -/
def truncate (q : ℚ) : ℤ := q.num.tdiv q.den

/-- The seconds since the last finding, or `none` for `N/A`. -/
def pprintLastFindings (s : Snapshot) (ret : Aggregate) : Except Error (Dict Text (Option ℤ)) :=
  exitReasons.foldlM
    (fun last reason => do
      let lastTime ← lookup ret.lastFound reason
      .ok (last.set reason
        (if lastTime = 0 then none else some (truncate (s.startTime + s.runtime - lastTime)))))
    .empty

/-- What is put into a format; calls of `humanize` stay as they are. -/
inductive Value where
  | text (t : Text)
  | number (n : ℤ)
  | ratio (q : ℚ)
  | lastFound (seconds : Option ℤ)
  | naturaldelta (seconds : ℚ≥0)
  | intword (n : ℕ)
  | intcomma (n : ℕ)
  deriving DecidableEq

structure Line where
  format : Text
  values : List Value := []
  deriving DecidableEq

def findingLine (s : Snapshot) (lastFind : Dict Text (Option ℤ)) (format reason : Text) :
    Except Error Line := do
  let count ← lookup s.findings reason
  let last ← lookup lastFind reason
  .ok ⟨format, [.number count, .lastFound last]⟩

def performance (s : Snapshot) (lastFind : Dict Text (Option ℤ)) : Except Error (List Line) := do
  let timeoutRate ← divide s.numTimeout s.totalExecs
  let funkyRate ← divide s.numFunky s.totalExecs
  let reloadRate ← divide s.numReload s.totalExecs
  let regulars ← findingLine s lastFind "  regular:   %4d (last: %s)\n".toList regular
  let crashes ← findingLine s lastFind "  crashes:   %4d (last: %s)\n".toList "crash".toList
  let sanitizer ← findingLine s lastFind "  sanitizer: %4d (last: %s)\n".toList "kasan".toList
  let timeouts ← findingLine s lastFind "  timeout:   %4d (last: %s)\n".toList "timeout".toList
  .ok [⟨"\nPerformance\n".toList, []⟩,
    ⟨"  Avg. exec/s: %s\n".toList, [.intcomma s.execs]⟩,
    ⟨"  Timeout rate: %3.2f%%\n".toList, [.ratio (timeoutRate * 100)]⟩,
    ⟨"  Funky rate:   %3.2f%%\n".toList, [.ratio (funkyRate * 100)]⟩,
    ⟨"  Reload rate:  %3.2f%%\n".toList, [.ratio (reloadRate * 100)]⟩,
    ⟨"\nCorpus (%s paths)\n".toList, [.intcomma s.pathsTotal]⟩,
    regulars, crashes, sanitizer, timeouts]

def queueStages : List (Text × Text) := [
  ("initial".toList, "init".toList),
  ("redq/grim".toList, "rq/gr".toList),
  ("deterministic".toList, "deter".toList),
  ("havoc".toList, "havoc".toList),
  ("final".toList, "final".toList)]

def queueProgress (ret : Aggregate) : List Line :=
  ⟨"\nQueue Progress\n".toList, []⟩ ::
    ⟨"  %5s  %4s    %4s\n".toList, [.text "Stage".toList, .text "Favs".toList,
      .text "Norm".toList]⟩ ::
    queueStages.map fun stage =>
      ⟨"  %5s: %4d  / %4d\n".toList, [.text stage.2, .number (ret.favStates.getD stage.1 0),
        .number (ret.normStates.getD stage.1 0)]⟩

def mutationYields (ret : Aggregate) : List Line :=
  ⟨"\nMutation Yields\n".toList, []⟩ ::
    ret.yield.entries.map fun entry =>
      ⟨"  %12s: %4d\n".toList, [.text entry.1, .number entry.2]⟩

/-- The lines appended to the page; `plotfile` is the plot's relative path if it is a file. -/
def printHtml (s : Snapshot) (ret : Aggregate) (plotfile : Option Text) :
    Except Error (List Line) := do
  let lastFind ← pprintLastFindings s ret
  let doneTotal ← estimateDone s ret
  let header : List Line := [
    ⟨"<table>\n<tr><th align=left>%s</th></tr>\n".toList, [.text s.name]⟩,
    ⟨"<tr><td><pre>\n".toList, []⟩,
    ⟨"Total runtime:    %s\n".toList, [.naturaldelta s.runtime]⟩,
    ⟨"Total executions: %s\n".toList, [.intword s.totalExecs]⟩,
    ⟨"Edges in bitmap:  %s\n".toList, [.intcomma s.bytesInBitmap]⟩,
    ⟨"Estimated done:  ~%d%%\n".toList, [.ratio doneTotal]⟩]
  let block ← (if 0 < doneTotal then do
      let rates ← performance s lastFind
      .ok (rates ++ queueProgress ret ++ mutationYields ret)
    else .ok [])
  let plot : List Line := plotfile.toList.map fun path =>
    ⟨"<img width=700 src=\"%s\">\n".toList, [.text path]⟩
  .ok (header ++ block ++ ⟨"</pre></td><td>\n".toList, []⟩ :: plot ++
    [⟨"</td></tr>\n".toList, []⟩, ⟨"</table>\n\n".toList, []⟩])

/-! ## Counting by states -/

def Node.Favorite (node : Node) : Prop := node.exitReason = regular ∧ node.favBits ≠ []

def Node.Normal (node : Node) : Prop := node.exitReason = regular ∧ node.favBits = []

instance (node : Node) : Decidable node.Favorite := by
  unfold Node.Favorite
  infer_instance

instance (node : Node) : Decidable node.Normal := by
  unfold Node.Normal
  infer_instance

structure Tallied (nodes : List Node) (ret : Aggregate) : Prop where
  favStates : ∀ state, ret.favStates.getD state 0 =
    nodes.countP fun node => node.Favorite ∧ node.stateName = state
  normStates : ∀ state, ret.normStates.getD state 0 =
    nodes.countP fun node => node.Normal ∧ node.stateName = state

theorem tallied_initial : Tallied [] initialAggregate where
  favStates _ := rfl
  normStates _ := rfl

theorem getD_countState (states : Dict Text ℤ) (state state' : Text) :
    (countState states state).getD state' 0 =
      states.getD state' 0 + if state = state' then 1 else 0 := by
  rw [countState, Dict.getD_set]
  by_cases h : state' = state
  · simp [h]
  · simp [h, Ne.symm h]

theorem Tallied.visitNode {nodes : List Node} {ret ret' : Aggregate} {node : Node}
    (h : Tallied nodes ret) (hvisit : visitNode ret node = .ok ret') :
    Tallied (nodes ++ [node]) ret' := by
  unfold KaflStats.visitNode at hvisit
  split at hvisit
  case h_1 => contradiction
  case h_2 lastFound hlast =>
    split at hvisit
    case isTrue hregular =>
      split at hvisit
      case isTrue hfav =>
        obtain rfl := Except.ok.inj hvisit
        have hne : node.favBits ≠ [] := List.length_pos_iff.mp hfav
        constructor <;> intro state
        · simp [getD_countState, h.favStates, Node.Favorite, hregular, hne, List.countP_singleton]
        · simp [h.normStates, Node.Normal, hne]
      case isFalse hfav =>
        obtain rfl := Except.ok.inj hvisit
        have hnil : node.favBits = [] := by simpa using hfav
        constructor <;> intro state
        · simp [h.favStates, Node.Favorite, hnil]
        · simp [getD_countState, h.normStates, Node.Normal, hregular, hnil,
            List.countP_singleton]
    case isFalse hregular =>
      obtain rfl := Except.ok.inj hvisit
      constructor <;> intro state
      · simp [h.favStates, Node.Favorite, hregular]
      · simp [h.normStates, Node.Normal, hregular]

theorem tallied_foldlM {nodes : List Node} {ret : Aggregate}
    (h : nodes.foldlM visitNode initialAggregate = .ok ret) : Tallied nodes ret :=
  foldlM_induction tallied_initial (fun htallied hvisit => htallied.visitNode hvisit) h

theorem statsAggregate_ok {stats : Stats} {ret : Aggregate} (h : statsAggregate stats = .ok ret) :
    Tallied stats.nodes.values ret ∧ ret.lastFound.keys = exitReasons := by
  obtain ⟨visited, hvisited, hyields⟩ := bind_eq_ok.mp h
  obtain ⟨hfavs, hnorms, hlast⟩ := foldlM_visitYield_states hyields
  have htallied := tallied_foldlM hvisited
  refine ⟨⟨?_, ?_⟩, ?_⟩
  · rw [hfavs]
    exact htallied.favStates
  · rw [hnorms]
    exact htallied.normStates
  · rw [hlast]
    exact (visited_foldlM hvisited).reasons

/-! ## Consistent snapshots -/

/-- The totals of the fuzzer are those of the nodes. -/
structure Consistent (s : Snapshot) : Prop where
  findings : ∀ reason ∈ exitReasons,
    s.findings.get? reason = some (s.nodes.values.countP (·.exitReason = reason))
  pathsTotal : s.pathsTotal = s.findings.values.sum
  favsTotal : s.favsTotal = s.nodes.values.countP (·.Favorite)

theorem countP_regular (nodes : List Node) :
    nodes.countP (·.exitReason = regular) =
      nodes.countP (·.Favorite) + nodes.countP (·.Normal) := by
  induction nodes with
  | nil => rfl
  | cons node rest ih =>
      simp only [List.countP_cons, ih, Node.Favorite, Node.Normal, decide_eq_true_eq]
      by_cases hregular : node.exitReason = regular <;> by_cases hnil : node.favBits = [] <;>
        simp [hregular, hnil] <;> omega

section

variable {s : Snapshot} (consistent : Consistent s)

include consistent

theorem Consistent.lookup {reason : Text} (hreason : reason ∈ exitReasons) :
    lookup s.findings reason = .ok (s.nodes.values.countP (·.exitReason = reason)) := by
  rw [KaflStats.lookup, consistent.findings reason hreason]

theorem Consistent.regular_le_pathsTotal :
    s.nodes.values.countP (·.exitReason = regular) ≤ s.pathsTotal := by
  have hentry := Dict.mem_entries_of_get? (consistent.findings regular (by decide))
  rw [consistent.pathsTotal]
  exact List.le_sum_of_mem (List.mem_map.mpr ⟨_, hentry, rfl⟩)

variable {ret : Aggregate} (tallied : Tallied s.nodes.values ret)

include tallied

theorem Consistent.favStates_final :
    0 ≤ ret.favStates.getD final 0 ∧ ret.favStates.getD final 0 ≤ s.favsTotal := by
  have hle : s.nodes.values.countP (fun node => node.Favorite ∧ node.stateName = final) ≤
      s.nodes.values.countP (·.Favorite) :=
    List.countP_mono_left fun node _ h => by simp_all
  rw [tallied.favStates, consistent.favsTotal]
  omega

theorem Consistent.normStates_final :
    0 ≤ ret.normStates.getD final 0 ∧
      ret.normStates.getD final 0 ≤
        s.nodes.values.countP (·.exitReason = regular) - (s.favsTotal : ℤ) := by
  have hle : s.nodes.values.countP (fun node => node.Normal ∧ node.stateName = final) ≤
      s.nodes.values.countP (·.Normal) :=
    List.countP_mono_left fun node _ h => by simp_all
  rw [tallied.normStates, consistent.favsTotal, countP_regular]
  omega

end

/-! ## Divisions -/

theorem divide_of_ne_zero {x y : ℚ} (h : y ≠ 0) : divide x y = .ok (x / y) := if_neg h

theorem exists_percentage (ofNothing : ℚ) (hofNothing : 0 ≤ ofNothing ∧ ofNothing ≤ 100)
    {part whole : ℤ} (hpart : 0 ≤ part ∧ part ≤ whole) :
    ∃ share, (if 0 < whole then divide (100 * part) whole else .ok ofNothing) = .ok share ∧
      0 ≤ share ∧ share ≤ 100 := by
  by_cases hwhole : 0 < whole
  · have hpos : (0 : ℚ) < whole := by exact_mod_cast hwhole
    have hnonneg : (0 : ℚ) ≤ part := by exact_mod_cast hpart.1
    have hle : (part : ℚ) ≤ whole := by exact_mod_cast hpart.2
    refine ⟨100 * part / whole, by rw [if_pos hwhole, divide_of_ne_zero hpos.ne'], ?_, ?_⟩
    · positivity
    · rw [div_le_iff₀ hpos]
      linarith
  · exact ⟨ofNothing, if_neg hwhole, hofNothing⟩

theorem exists_crashFraction {regulars paths : ℕ} (hle : regulars ≤ paths) (hpos : 0 < paths) :
    ∃ crashes, divide (paths - regulars) paths = .ok crashes ∧ 0 ≤ crashes ∧ crashes ≤ 1 := by
  have hpaths : (0 : ℚ) < paths := by exact_mod_cast hpos
  have hregulars : (regulars : ℚ) ≤ paths := by exact_mod_cast hle
  refine ⟨_, divide_of_ne_zero hpaths.ne', div_nonneg (by linarith) hpaths.le, ?_⟩
  rw [div_le_one hpaths]
  exact sub_le_self _ regulars.cast_nonneg

/-! ## The estimate and the page -/

theorem exists_lookup {ν : Type} {d : Dict Text ν} {key : Text} (h : key ∈ d.keys) :
    ∃ value, lookup d key = .ok value := by
  obtain ⟨value, hvalue⟩ := Dict.exists_get?_iff.mpr h
  exact ⟨value, by rw [lookup, hvalue]⟩

theorem pprintLastFindings_ok (s : Snapshot) {ret : Aggregate}
    (hkeys : ret.lastFound.keys = exitReasons) :
    ∃ last, pprintLastFindings s ret = .ok last ∧ ∀ reason ∈ exitReasons, reason ∈ last.keys := by
  refine exists_foldlM_ok
    (P := fun reasons (last : Dict Text (Option ℤ)) => ∀ reason ∈ reasons, reason ∈ last.keys)
    (by simp) fun reason hreason _ last hlast => ?_
  obtain ⟨time, htime⟩ := exists_lookup (hkeys ▸ hreason : reason ∈ ret.lastFound.keys)
  rw [htime, bind_ok]
  exact ⟨_, rfl, by grind [Dict.mem_keys_set]⟩

section

variable {s : Snapshot} {ret : Aggregate} (consistent : Consistent s)

include consistent

/-- Without executions there is no progress, and the page shows no rates. -/
theorem estimateDone_ok (tallied : Tallied s.nodes.values ret) :
    ∃ done, estimateDone s ret = .ok done ∧ 0 ≤ done ∧ done ≤ 100 ∧
      (0 < done → s.totalExecs ≠ 0) := by
  obtain ⟨doneFavs, hfavs, hfavs0, hfavs100⟩ :=
    exists_percentage 0 (by norm_num) (consistent.favStates_final tallied)
  obtain ⟨doneNorms, hnorms, hnorms0, hnorms100⟩ :=
    exists_percentage 100 (by norm_num) (consistent.normStates_final tallied)
  have hpaths := consistent.regular_le_pathsTotal
  simp only [estimateDone, consistent.lookup (List.mem_cons_self : regular ∈ exitReasons), bind_ok]
  split
  case isTrue => exact ⟨0, rfl, by norm_num⟩
  case isFalse hskip =>
    rw [not_or] at hskip
    obtain ⟨crashes, hcrashes, hcrashes0, hcrashes1⟩ :=
      exists_crashFraction hpaths (by omega)
    rw [hfavs, bind_ok, hnorms, bind_ok, hcrashes, bind_ok]
    exact ⟨_, rfl, by linarith, by linarith, fun _ => hskip.1⟩

theorem findingLine_ok {last : Dict Text (Option ℤ)} {reason : Text} (format : Text)
    (hreason : reason ∈ exitReasons) (hlast : reason ∈ last.keys) :
    ∃ line, findingLine s last format reason = .ok line := by
  obtain ⟨seconds, hseconds⟩ := exists_lookup hlast
  rw [findingLine, consistent.lookup hreason, bind_ok, hseconds, bind_ok]
  exact ⟨_, rfl⟩

theorem performance_ok {last : Dict Text (Option ℤ)}
    (hlast : ∀ reason ∈ exitReasons, reason ∈ last.keys) (hexecs : s.totalExecs ≠ 0) :
    ∃ lines, performance s last = .ok lines := by
  have hline : ∀ reason ∈ exitReasons, ∀ format,
      ∃ line, findingLine s last format reason = .ok line := fun reason hreason format =>
    findingLine_ok consistent format hreason (hlast reason hreason)
  choose line hline using hline
  have hrate : ∀ x : ℚ, divide x s.totalExecs = .ok (x / s.totalExecs) := fun x =>
    divide_of_ne_zero (by exact_mod_cast hexecs)
  simp (disch := decide) only [performance, hrate, hline, bind_ok]
  exact ⟨_, rfl⟩

theorem printHtml_ok (plotfile : Option Text) (tallied : Tallied s.nodes.values ret)
    (hkeys : ret.lastFound.keys = exitReasons) : ∃ page, printHtml s ret plotfile = .ok page := by
  obtain ⟨last, hlast, hmem⟩ := pprintLastFindings_ok s hkeys
  obtain ⟨done, hdone, -, -, hexecs⟩ := estimateDone_ok consistent tallied
  rw [printHtml, hlast, bind_ok, hdone, bind_ok]
  split
  case isTrue hpos =>
    obtain ⟨rates, hrates⟩ := performance_ok consistent hmem (hexecs hpos)
    rw [hrates]
    exact ⟨_, rfl⟩
  case isFalse => exact ⟨_, rfl⟩

end

/--
On a consistent snapshot neither the estimate nor the page divides by zero, and
the estimate is a percentage.
-/
theorem estimate_guarded (s : Snapshot) (ret : Aggregate) (plotfile : Option Text)
    (consistent : Consistent s) (h : statsAggregate s.toStats = .ok ret) :
    ∃ done page, estimateDone s ret = .ok done ∧ 0 ≤ done ∧ done ≤ 100 ∧
      printHtml s ret plotfile = .ok page := by
  obtain ⟨tallied, hkeys⟩ := statsAggregate_ok h
  obtain ⟨done, hdone, hnonneg, hle, -⟩ := estimateDone_ok consistent tallied
  obtain ⟨page, hpage⟩ := printHtml_ok consistent plotfile tallied hkeys
  exact ⟨done, page, hdone, hnonneg, hle, hpage⟩

def mixedSnapshot : Snapshot where
  numWorkers := 1
  findings := .collect [(regular, 2), ("crash".toList, 1), ("kasan".toList, 0),
    ("timeout".toList, 0)]
  yield := .collect [("import".toList, 3)]
  totalExecs := 200
  runtime := 2
  workers := .collect [(0, ⟨2⟩)]
  nodes := .collect [(1, ⟨regular, 5, final, [7]⟩), (2, ⟨regular, 6, "havoc".toList, []⟩),
    (3, ⟨"crash".toList, 6, "initial".toList, []⟩)]
  execs := 100
  pathsTotal := 3
  name := "workdir".toList
  startTime := 4
  favsTotal := 1
  numTimeout := 1
  numFunky := 2
  numReload := 3
  bytesInBitmap := 50

theorem consistent_mixed : Consistent mixedSnapshot where
  findings := by decide
  pathsTotal := by decide
  favsTotal := by decide

def mixedAggregate : Aggregate where
  favStates := .collect [(final, 1)]
  normStates := .collect [("havoc".toList, 1)]
  lastFound := .collect [(regular, 6), ("crash".toList, 6), ("kasan".toList, 0),
    ("timeout".toList, 0)]
  yield := .collect [("seed/import".toList, 3)]

example : estimateDone mixedSnapshot mixedAggregate = .ok (220 / 3) := by decide +kernel

theorem estimate_guarded_mixed :
    ∃ done page, estimateDone mixedSnapshot mixedAggregate = .ok done ∧ 0 ≤ done ∧ done ≤ 100 ∧
      printHtml mixedSnapshot mixedAggregate none = .ok page :=
  estimate_guarded mixedSnapshot mixedAggregate none consistent_mixed (by decide +kernel)

end TdvfFuzz.KaflStats
