import Mathlib.Data.Char
import Mathlib.Data.Finset.Option
import Mathlib.Data.Finset.Sort
import TdvfFuzz.Foundation.DepthSearch
import TdvfFuzz.SmatchMatch.TraceParser

/-!
# The caller search of `smatch_match.py`

`collect_callers` notes the callers it has seen in a set that all calls of the
process share, and goes on at the functions of the others.
-/

namespace TdvfFuzz.SmatchMatch

open TdvfFuzz.Foundation

/-- `sorted` of a set -/
def sortedSet {α : Type} [LinearOrder α] (s : Finset α) : List α := s.sort

@[simp] theorem mem_sortedSet {α : Type} [LinearOrder α] {s : Finset α} {x : α} :
    x ∈ sortedSet s ↔ x ∈ s := Finset.mem_sort _

theorem sortedSet_eq {α : Type} [LinearOrder α] {s : Finset α} {xs : List α}
    (hmem : ∀ x, x ∈ s ↔ x ∈ xs) (hsorted : xs.Pairwise (· < ·)) : sortedSet s = xs := by
  obtain rfl : s = xs.toFinset := by
    ext x
    simp [hmem]
  have hnodup : xs.Nodup := hsorted.imp fun h => h.ne
  exact (List.toFinset_sort (· ≤ ·) hnodup).mpr (hsorted.imp fun h => h.le)

/-- What the search reads of a `TraceParser`. -/
structure CallGraph where
  callers : Dict ℤ (Finset ℤ)
  addr2lifu : Dict ℤ (Text × Text)
  func2addr : Dict Text (Finset ℤ)

inductive CallersError where
  | keyError
  | typeError
  deriving DecidableEq, Repr

def isValidAddr : Option ℤ → Bool
  | none => false
  | some addr => addr ≠ 0xffffffffffffffff

def traceExit : Text := "trace_exit".toList

namespace CallGraph

variable (g : CallGraph)

/-- `self.callers.get(addr, [None])` -/
def addr2caller (addr : ℤ) : Finset (Option ℤ) :=
  match g.callers.get? addr with
  | none => {none}
  | some callers => callers.map .some

/-- `none` for a `KeyError`. -/
def addr2func (addr : ℤ) : Option Text :=
  if addr < 0xffffffff00000000 then some traceExit
  else (g.addr2lifu.get? addr).map Prod.snd

/-- `none` for a `KeyError`. -/
def func2addrs (func : Text) : Option (Finset ℤ) :=
  if func = traceExit then some {exitIp} else g.func2addr.get? func

def entrySites (addrs : Finset ℤ) : Finset ℤ :=
  ((addrs.biUnion g.addr2caller).filter (isValidAddr ·)).eraseNone

/-- `sorted(set(self.addr2func(addr) for addr in callers))` -/
def sortedFuncs (callers : Finset ℤ) : Option (List Text) :=
  let funcs := callers.image g.addr2func
  if none ∈ funcs then none else some (sortedSet funcs.eraseNone)

/-- `for func in ..: result |= self.collect_callers(..)`; the set of seen callers
outlives an exception. -/
def collectAll (collect : Text → Finset ℤ →
    Finset ℤ × Except CallersError (Option (Finset ℤ))) :
    List Text → Finset ℤ → Finset ℤ →
      Finset ℤ × Except CallersError (Option (Finset ℤ))
  | [], result, seenCallers => (seenCallers, .ok (some result))
  | func :: funcs, result, seenCallers =>
      match collect func seenCallers with
      | (seenCallers, .error e) => (seenCallers, .error e)
      | (seenCallers, .ok none) => (seenCallers, .error .typeError)
      | (seenCallers, .ok (some found)) => collectAll collect funcs (result ∪ found) seenCallers

/-- The search with so many levels left, and the set of seen callers behind it. -/
def collectCallers : ℕ → Text → Finset ℤ →
    Finset ℤ × Except CallersError (Option (Finset ℤ))
  | levels, func, seenCallers =>
      match g.func2addrs func with
      | none => (seenCallers, .ok none)
      | some addrs =>
          let callers := g.entrySites addrs \ seenCallers
          let seenCallers := seenCallers ∪ callers
          if callers = ∅ then (seenCallers, .ok (some callers))
          else
            match levels with
            | 0 => (seenCallers, .ok (some callers))
            | levels + 1 =>
                match g.sortedFuncs callers with
                | none => (seenCallers, .error .keyError)
                | some funcs => collectAll (collectCallers levels) funcs callers seenCallers

/-- The calls of one process one after the other, with the default `seen_callers`. -/
def callAll : List (Text × ℕ) → Finset ℤ → List (Except CallersError (Option (Finset ℤ)))
  | [], _ => []
  | (func, levels) :: calls, seenCallers =>
      (g.collectCallers levels func seenCallers).2 ::
        callAll calls (g.collectCallers levels func seenCallers).1

/-! ## The graph that is searched -/

/-- Every recorded caller has a function, and every such function its addresses. -/
structure Located : Prop where
  func : ∀ dst caller, some caller ∈ g.addr2caller dst → isValidAddr (some caller) →
    ∃ func, g.addr2func caller = some func
  addrs : ∀ addr func, g.addr2func addr = some func → ∃ addrs, g.func2addrs func = some addrs

/-- Functions with their entry sites; an address without a function is given an empty name. -/
def itemGraph : ItemGraph Text ℤ where
  items func := ((g.func2addrs func).map g.entrySites).getD ∅
  node addr := (g.addr2func addr).getD []
  next new := sortedSet (new.image fun addr => (g.addr2func addr).getD [])
  mem_next := by simp

/-- The visits of the calls, a list for each; a visit is one run of `collect_callers`. -/
def visitsAll : List (Text × ℕ) → Finset ℤ → List (List (Visit Text ℤ))
  | [], _ => []
  | (func, levels) :: calls, seenCallers =>
      g.itemGraph.search levels func seenCallers ::
        visitsAll calls (seenCallers ∪ metBy (g.itemGraph.search levels func seenCallers))

variable {g}

theorem items_of_func2addrs {func : Text} {addrs : Finset ℤ} (h : g.func2addrs func = some addrs) :
    g.itemGraph.items func = g.entrySites addrs := by
  simp [itemGraph, h]

theorem addr2func_of_mem (located : g.Located) {addrs : Finset ℤ} {addr : ℤ}
    (h : addr ∈ g.entrySites addrs) : g.addr2func addr = some (g.itemGraph.node addr) := by
  simp only [entrySites, Finset.mem_eraseNone, Finset.mem_filter, Finset.mem_biUnion] at h
  obtain ⟨⟨dst, -, hcaller⟩, hvalid⟩ := h
  obtain ⟨func, hfunc⟩ := located.func dst addr hcaller hvalid
  simp [itemGraph, hfunc]

theorem sortedFuncs_eq {callers : Finset ℤ}
    (h : ∀ addr ∈ callers, g.addr2func addr = some (g.itemGraph.node addr)) :
    g.sortedFuncs callers = some (g.itemGraph.next callers) := by
  have himage : callers.image g.addr2func =
      (callers.image fun addr => (g.addr2func addr).getD []).map .some := by
    rw [Finset.map_eq_image, Finset.image_image]
    exact Finset.image_congr fun addr haddr => by
      simpa [itemGraph] using h addr haddr
  have hnone : none ∉ callers.image g.addr2func := by
    rw [himage]
    simp
  simp only [sortedFuncs, hnone, if_false, itemGraph]
  rw [himage, Finset.eraseNone_map_some]

theorem collectAll_eq {collect : Text → Finset ℤ →
      Finset ℤ × Except CallersError (Option (Finset ℤ))}
    {search : Text → Finset ℤ → List (Visit Text ℤ)} {funcs : List Text}
    (h : ∀ func ∈ funcs, ∀ seenCallers, collect func seenCallers =
      (seenCallers ∪ metBy (search func seenCallers),
        .ok (some (metBy (search func seenCallers)))))
    (result seenCallers : Finset ℤ) :
    collectAll collect funcs result seenCallers =
      (seenCallers ∪ metBy (searchAll search funcs seenCallers),
        .ok (some (result ∪ metBy (searchAll search funcs seenCallers)))) := by
  induction funcs generalizing result seenCallers with
  | nil => simp [collectAll, searchAll, metBy]
  | cons func funcs ih =>
      rw [collectAll, h func (by simp)]
      simp only [searchAll, metBy_append]
      rw [ih fun other hother => h other (by simp [hother])]
      simp only [Finset.union_assoc]

theorem collectCallers_eq (located : g.Located) {levels : ℕ} {func : Text}
    (seenCallers : Finset ℤ) (hknown : ∃ addrs, g.func2addrs func = some addrs) :
    g.collectCallers levels func seenCallers =
      (seenCallers ∪ metBy (g.itemGraph.search levels func seenCallers),
        .ok (some (metBy (g.itemGraph.search levels func seenCallers)))) := by
  obtain ⟨addrs, haddrs⟩ := hknown
  induction levels generalizing func seenCallers addrs with
  | zero =>
      simp [collectCallers, haddrs, ItemGraph.search, metBy, items_of_func2addrs haddrs]
  | succ levels ih =>
      have hnode : ∀ addr ∈ g.entrySites addrs \ seenCallers,
          g.addr2func addr = some (g.itemGraph.node addr) := fun addr haddr =>
        addr2func_of_mem located (Finset.mem_sdiff.mp haddr).1
      have hcollect : ∀ other ∈ g.itemGraph.next (g.entrySites addrs \ seenCallers),
          ∀ seenCallers, g.collectCallers levels other seenCallers =
            (seenCallers ∪ metBy (g.itemGraph.search levels other seenCallers),
              .ok (some (metBy (g.itemGraph.search levels other seenCallers)))) := by
        intro other hother seenCallers
        obtain ⟨addr, haddr, rfl⟩ := g.itemGraph.mem_next.mp hother
        obtain ⟨others, hothers⟩ := located.addrs _ _ (hnode addr haddr)
        exact ih _ _ hothers
      rw [collectCallers, haddrs]
      simp only [ItemGraph.search, metBy, items_of_func2addrs haddrs]
      split
      case isTrue hnone => simp [hnone, g.itemGraph.next_empty, searchAll, metBy]
      case isFalse =>
        rw [sortedFuncs_eq hnode]
        simp only
        rw [collectAll_eq hcollect]
        simp only [Finset.union_assoc]

/-! ## The calls of a process -/

/-- The valid callers of the functions within so many caller steps. -/
def callersWithin (g : CallGraph) (func : Text) (levels : ℕ) : Finset ℤ :=
  g.itemGraph.within levels func

theorem callAll_exact_iff (located : g.Located) {calls : List (Text × ℕ)}
    (hknown : ∀ call ∈ calls, ∃ addrs, g.func2addrs call.1 = some addrs) {seenCallers : Finset ℤ}
    (hloses : ∀ log ∈ g.visitsAll calls seenCallers, g.itemGraph.LosesNothing log) :
    g.callAll calls seenCallers =
        calls.map (fun call => .ok (some (g.callersWithin call.1 call.2))) ↔
      calls.Pairwise (fun call later => Disjoint (g.callersWithin call.1 call.2)
        (g.callersWithin later.1 later.2)) ∧
      ∀ call ∈ calls, Disjoint (g.callersWithin call.1 call.2) seenCallers := by
  induction calls generalizing seenCallers with
  | nil => simp [callAll]
  | cons call calls ih =>
      obtain ⟨func, levels⟩ := call
      rw [visitsAll, List.forall_mem_cons] at hloses
      have hfirst : metBy (g.itemGraph.search levels func seenCallers) =
          g.itemGraph.within levels func ↔
            Disjoint (g.itemGraph.within levels func) seenCallers :=
        metBy_search_eq_iff hloses.1
      rw [callAll, collectCallers_eq located seenCallers (hknown (func, levels) (by simp)),
        List.map_cons, List.cons.injEq, Except.ok.injEq, Option.some.injEq, List.pairwise_cons,
        List.forall_mem_cons]
      rw [ih (fun other hother => hknown other (by simp [hother])) hloses.2]
      simp only [callersWithin] at hfirst ⊢
      rw [hfirst]
      have hmet : Disjoint (g.itemGraph.within levels func) seenCallers →
          ∀ other : Finset ℤ, Disjoint other
              (seenCallers ∪ metBy (g.itemGraph.search levels func seenCallers)) ↔
            Disjoint other seenCallers ∧ Disjoint (g.itemGraph.within levels func) other := by
        intro hseen other
        rw [hfirst.mpr hseen, Finset.disjoint_union_right, disjoint_comm (a := other)
          (b := g.itemGraph.within levels func)]
      constructor
      · rintro ⟨hseen, hpairwise, hcalls⟩
        have hboth := fun other hother => (hmet hseen _).mp (hcalls other hother)
        exact ⟨⟨fun other hother => (hboth other hother).2, hpairwise⟩, hseen,
          fun other hother => (hboth other hother).1⟩
      · rintro ⟨⟨hlater, hpairwise⟩, hseen, hcalls⟩
        exact ⟨hseen, hpairwise, fun other hother =>
          (hmet hseen _).mpr ⟨hcalls other hother, hlater other hother⟩⟩

/--
As long as no visit drops a caller that its call met with too few levels left,
the calls of a process return the exact sets exactly if these are disjoint.
-/
theorem calls_exact_iff {g : CallGraph} (located : g.Located) {calls : List (Text × ℕ)}
    (hknown : ∀ call ∈ calls, ∃ addrs, g.func2addrs call.1 = some addrs)
    (hloses : ∀ log ∈ g.visitsAll calls ∅, g.itemGraph.LosesNothing log) :
    g.callAll calls ∅ = calls.map (fun call => .ok (some (g.callersWithin call.1 call.2))) ↔
      calls.Pairwise fun call later =>
        Disjoint (g.callersWithin call.1 call.2) (g.callersWithin later.1 later.2) := by
  rw [callAll_exact_iff located hknown hloses, and_iff_left]
  exact fun call _ => Finset.disjoint_empty_right _

/-! ## A caller of two functions -/

theorem located_of_entries
    (hfunc : ∀ entry ∈ g.callers.entries, ∀ caller ∈ entry.2,
      isValidAddr (some caller) → (g.addr2func caller).isSome)
    (haddrs : ∀ entry ∈ g.addr2lifu.entries, (g.func2addrs entry.2.2).isSome) : g.Located where
  func dst caller hcaller hvalid := by
    unfold addr2caller at hcaller
    split at hcaller
    case h_1 => simp at hcaller
    case h_2 callers hget =>
      exact Option.isSome_iff_exists.mp
        (hfunc _ (Dict.mem_entries_of_get? hget) caller (by simpa using hcaller) hvalid)
  addrs addr func h := by
    unfold addr2func at h
    split at h
    case isTrue => exact ⟨{exitIp}, by rw [← Option.some.inj h]; rfl⟩
    case isFalse =>
      obtain ⟨entry, hget, rfl⟩ := Option.map_eq_some_iff.mp h
      exact Option.isSome_iff_exists.mp (haddrs _ (Dict.mem_entries_of_get? hget))

/-- `init` and `probe` have one caller in common, which is met first where more levels are left. -/
def shareGraph : CallGraph where
  callers := .collect [
    (0xffffffff81000000, {0xffffffff81000110, 0xffffffff81000210}),
    (0xffffffff81000100, {0xffffffff81000210}),
    (0xffffffff81000200, {0xffffffff81000310}),
    (0xffffffff81000300, {0xffffffff81000410}),
    (0xffffffff81000500, {0xffffffff81000610})]
  addr2lifu := .collect [
    (0xffffffff81000110, ("init.c:1".toList, "init".toList)),
    (0xffffffff81000210, ("scan.c:1".toList, "scan".toList)),
    (0xffffffff81000310, ("main.c:1".toList, "main".toList)),
    (0xffffffff81000410, ("head.c:1".toList, "start".toList)),
    (0xffffffff81000610, ("exit.c:1".toList, "exit".toList))]
  func2addr := .collect [
    ("probe".toList, {0xffffffff81000000}),
    ("init".toList, {0xffffffff81000100}),
    ("scan".toList, {0xffffffff81000200}),
    ("main".toList, {0xffffffff81000300}),
    ("start".toList, {0xffffffff81000400}),
    ("stop".toList, {0xffffffff81000500}),
    ("exit".toList, {0xffffffff81000600})]

def shareCalls : List (Text × ℕ) := [("probe".toList, 2), ("stop".toList, 1)]

theorem next_of_sorted {callers : Finset ℤ} {funcs : List Text}
    (himage : callers.image (fun addr => (g.addr2func addr).getD []) = funcs.toFinset)
    (hsorted : funcs.Pairwise (· < ·)) : g.itemGraph.next callers = funcs :=
  sortedSet_eq (fun func => by rw [himage, List.mem_toFinset]) hsorted

theorem search_succ {levels : ℕ} {func : Text} {new seenCallers : Finset ℤ} {funcs : List Text}
    (hnew : g.itemGraph.items func \ seenCallers = new) (hnext : g.itemGraph.next new = funcs) :
    g.itemGraph.search (levels + 1) func seenCallers =
      ⟨levels + 1, func, new⟩ ::
        searchAll (g.itemGraph.search levels) funcs (seenCallers ∪ new) := by
  rw [ItemGraph.search, hnew, hnext]

theorem visitsAll_share : shareGraph.visitsAll shareCalls ∅ =
    [[⟨2, "probe".toList, {0xffffffff81000110, 0xffffffff81000210}⟩, ⟨1, "init".toList, ∅⟩,
        ⟨1, "scan".toList, {0xffffffff81000310}⟩, ⟨0, "main".toList, {0xffffffff81000410}⟩],
      [⟨1, "stop".toList, {0xffffffff81000610}⟩, ⟨0, "exit".toList, ∅⟩]] := by
  have hinit := @search_succ shareGraph 0 "init".toList ∅
    {0xffffffff81000110, 0xffffffff81000210} [] (by decide) (ItemGraph.next_empty _)
  have hscan := @search_succ shareGraph 0 "scan".toList {0xffffffff81000310}
    {0xffffffff81000110, 0xffffffff81000210} ["main".toList] (by decide)
    (next_of_sorted (by decide) (by decide))
  have hprobe := @search_succ shareGraph 1 "probe".toList {0xffffffff81000110, 0xffffffff81000210}
    ∅ ["init".toList, "scan".toList] (by decide) (next_of_sorted (by decide) (by decide))
  have hstop := @search_succ shareGraph 0 "stop".toList {0xffffffff81000610}
    {0xffffffff81000110, 0xffffffff81000210, 0xffffffff81000310, 0xffffffff81000410}
    ["exit".toList] (by decide) (next_of_sorted (by decide) (by decide))
  have hfirst : shareGraph.itemGraph.search 2 "probe".toList ∅ =
      [⟨2, "probe".toList, {0xffffffff81000110, 0xffffffff81000210}⟩, ⟨1, "init".toList, ∅⟩,
        ⟨1, "scan".toList, {0xffffffff81000310}⟩, ⟨0, "main".toList, {0xffffffff81000410}⟩] := by
    rw [hprobe]
    simp only [searchAll, Finset.empty_union, hinit, List.cons_append, List.nil_append, metBy,
      Finset.union_empty, hscan]
    decide
  have hmet : ∅ ∪ metBy (shareGraph.itemGraph.search 2 "probe".toList ∅) =
      {0xffffffff81000110, 0xffffffff81000210, 0xffffffff81000310, 0xffffffff81000410} := by
    rw [hfirst]
    decide
  rw [shareCalls, visitsAll, visitsAll, visitsAll, hmet, hstop, hfirst]
  decide

theorem losesNothing_share :
    ∀ log ∈ shareGraph.visitsAll shareCalls ∅, shareGraph.itemGraph.LosesNothing log := by
  intro log hlog
  rw [visitsAll_share] at hlog
  have hsorted : log.Pairwise fun earlier later => later.levels ≤ earlier.levels := by
    revert log
    decide
  refine losesNothing_of_le fun before visit after hsplit a ha earlier hearlier hnew => ?_
  rw [hsplit, List.pairwise_append] at hsorted
  exact hsorted.2.2 earlier hearlier visit (by simp)

theorem calls_exact_share :
    shareGraph.callAll shareCalls ∅ =
        shareCalls.map (fun call => .ok (some (shareGraph.callersWithin call.1 call.2))) ↔
      shareCalls.Pairwise fun call later =>
        Disjoint (shareGraph.callersWithin call.1 call.2)
          (shareGraph.callersWithin later.1 later.2) :=
  calls_exact_iff (located_of_entries (by decide) (by decide))
    (by simp only [← Option.isSome_iff_exists]; decide) losesNothing_share

/-! ## A function that is called on two ways -/

/-- `scan` calls `probe`, and `init`, which calls `probe` as well. -/
def probeGraph : CallGraph where
  callers := .collect [
    (0xffffffff81000000, {0xffffffff81000110, 0xffffffff81000210}),
    (0xffffffff81000100, {0xffffffff81000220}),
    (0xffffffff81000200, {0xffffffff81000310}),
    (0xffffffff81000300, {0xffffffff81000410})]
  addr2lifu := .collect [
    (0xffffffff81000110, ("init.c:1".toList, "init".toList)),
    (0xffffffff81000210, ("scan.c:1".toList, "scan".toList)),
    (0xffffffff81000220, ("scan.c:2".toList, "scan".toList)),
    (0xffffffff81000310, ("main.c:1".toList, "main".toList)),
    (0xffffffff81000410, ("head.c:1".toList, "start".toList))]
  func2addr := .collect [
    ("probe".toList, {0xffffffff81000000}),
    ("init".toList, {0xffffffff81000100}),
    ("scan".toList, {0xffffffff81000200}),
    ("main".toList, {0xffffffff81000300}),
    ("start".toList, {0xffffffff81000400})]

theorem sortedFuncs_of_sorted {callers : Finset ℤ} {funcs : List Text}
    (himage : callers.image g.addr2func = (funcs.map some).toFinset)
    (hsorted : funcs.Pairwise (· < ·)) : g.sortedFuncs callers = some funcs := by
  have hnone : none ∉ callers.image g.addr2func := by
    simp [himage]
  have hmem : ∀ func, func ∈ (callers.image g.addr2func).eraseNone ↔ func ∈ funcs := by
    simp [himage]
  simp only [sortedFuncs, hnone, if_false, sortedSet_eq hmem hsorted]

theorem collectCallers_succ {levels : ℕ} {func : Text} {addrs new seenCallers : Finset ℤ}
    {funcs : List Text} (haddrs : g.func2addrs func = some addrs)
    (hnew : g.entrySites addrs \ seenCallers = new) (hne : new ≠ ∅)
    (hfuncs : g.sortedFuncs new = some funcs) :
    g.collectCallers (levels + 1) func seenCallers =
      collectAll (g.collectCallers levels) funcs new (seenCallers ∪ new) := by
  rw [collectCallers, haddrs]
  simp only [hnew, hne, if_false, hfuncs]

/-- The only caller of `main` is lost with two levels, and everything when the call is repeated. -/
theorem probe_callers_lost :
    probeGraph.Located ∧ (probeGraph.func2addrs "probe".toList).isSome ∧
      probeGraph.callAll [("probe".toList, 2)] ∅ = [.ok (some
        {0xffffffff81000110, 0xffffffff81000210, 0xffffffff81000220, 0xffffffff81000310})] ∧
      0xffffffff81000410 ∈ probeGraph.callersWithin "probe".toList 2 ∧
      probeGraph.callAll [("init".toList, 0), ("init".toList, 0)] ∅ =
        [.ok (some {0xffffffff81000220}), .ok (some ∅)] := by
  have hprobe : probeGraph.sortedFuncs {0xffffffff81000110, 0xffffffff81000210} =
      some ["init".toList, "scan".toList] := sortedFuncs_of_sorted (by decide) (by decide)
  have hinit : probeGraph.sortedFuncs {0xffffffff81000220} = some ["scan".toList] :=
    sortedFuncs_of_sorted (by decide) (by decide)
  have hscan : probeGraph.collectCallers 0 "scan".toList
      {0xffffffff81000110, 0xffffffff81000210, 0xffffffff81000220} =
      ({0xffffffff81000110, 0xffffffff81000210, 0xffffffff81000220, 0xffffffff81000310},
        .ok (some {0xffffffff81000310})) := by
    decide
  have hagain : probeGraph.collectCallers 1 "scan".toList
      {0xffffffff81000110, 0xffffffff81000210, 0xffffffff81000220, 0xffffffff81000310} =
      ({0xffffffff81000110, 0xffffffff81000210, 0xffffffff81000220, 0xffffffff81000310},
        .ok (some ∅)) := by
    decide
  have hcut : probeGraph.collectCallers 1 "init".toList
      {0xffffffff81000110, 0xffffffff81000210} =
      ({0xffffffff81000110, 0xffffffff81000210, 0xffffffff81000220, 0xffffffff81000310},
        .ok (some {0xffffffff81000220, 0xffffffff81000310})) := by
    rw [collectCallers_succ rfl (by decide) (by decide) hinit]
    have hseen : ({0xffffffff81000110, 0xffffffff81000210} ∪ {0xffffffff81000220} : Finset ℤ) =
        {0xffffffff81000110, 0xffffffff81000210, 0xffffffff81000220} := by
      decide
    simp only [collectAll, hseen, hscan]
    decide
  refine ⟨located_of_entries (by decide) (by decide), by decide, ?_, by decide, by decide⟩
  rw [callAll, collectCallers_succ rfl (by decide) (by decide) hprobe]
  simp only [collectAll, Finset.empty_union, hcut, hagain]
  decide

end CallGraph

end TdvfFuzz.SmatchMatch
