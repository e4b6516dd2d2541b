import TdvfFuzz.FastMatcher.Ranges
import TdvfFuzz.Foundation.Dict
import TdvfFuzz.Foundation.Regex

/-!
# The functions of a report

The report is collected into a map from locations to functions, and the block
ranges are those of the functions in the map.  Of the entries of one location
only the last one names its function.
-/

namespace TdvfFuzz.FastMatcher

open TdvfFuzz.Foundation

/-! ## Reading a report -/

/-- `\S` -/
def notWhiteSpace (c : Char) : Bool := !isWhiteSpace c

/-- `(\S+:[0-9]+)\s(\S+)\(\)` -/
def reportPattern : Regex :=
  .seq (.group (.seq (.rep true 1 notWhiteSpace)
    (.seq (.cls (· == ':')) (.rep true 1 Char.isDigit))))
  (.seq (.cls isWhiteSpace) (.seq (.group (.rep true 1 notWhiteSpace)) (Regex.lit "()".toList)))

/-- `captures_iter` -/
def reportEntries (s : Text) : List (Text × Function) :=
  (reportPattern.findall s).filterMap fun m =>
    match m.groups with
    | [line, func] => some (line, func)
    | _ => none

/-- `str::parse::<u32>().ok()` -/
def parseU32 (s : Text) : Option UInt32 :=
  if dropPlus s ≠ [] ∧ ∀ c ∈ dropPlus s, c.isDigit then
    if h : Nat.ofDigitChars 10 (dropPlus s) 0 < UInt32.size then some (.ofNatLT _ h) else none
  else none

/-- `LineInfo::from(String)`, or `none` where it panics. -/
def LineInfo.fromString (location : Text) : Option LineInfo :=
  match location.splitOn ':' with
  | path :: line :: _ => (parseU32 line).map (.new (components path))
  | _ => none

def collectSmatchReport (s : Text) : Option SmatchData :=
  ((reportEntries s).mapM fun entry => (LineInfo.fromString entry.1).map (·, entry.2)).map
    fun data => (Dict.collect data).entries

/-! ## Functions that last -/

def locatedEntries (s : Text) : List (Option LineInfo × Function) :=
  (reportEntries s).map fun entry => (LineInfo.fromString entry.1, entry.2)

def Named (s : Text) (func : Function) : Prop := func ∈ (reportEntries s).map Prod.snd

/-- Some entry names the function, and is the last one of its location. -/
def LastNamed (s : Text) (func : Function) : Prop := Dict.Lasting (locatedEntries s) func

def Readable (s : Text) : Prop := ∀ entry ∈ locatedEntries s, entry.1 ≠ none

theorem LastNamed.named {s : Text} {func : Function} (h : LastNamed s func) : Named s func := by
  obtain ⟨front, location, rest, hentries, -⟩ := h
  have hmem : (location, func) ∈ locatedEntries s := by simp [hentries]
  obtain ⟨entry, hentry, heq⟩ := List.mem_map.mp hmem
  obtain ⟨-, rfl⟩ := Prod.mk.inj heq
  exact List.mem_map_of_mem hentry

section

variable {α κ ν : Type}

theorem mapM_eq_some_iff (f : α → Option κ) (g : α → ν) {entries : List α}
    {data : List (κ × ν)} :
    (entries.mapM fun entry => (f entry).map (·, g entry)) = some data ↔
      (entries.map fun entry => (f entry, g entry)) = data.map fun e => (some e.1, e.2) := by
  induction entries generalizing data with
  | nil => cases data <;> simp
  | cons entry entries ih =>
      rw [List.mapM_cons, List.map_cons]
      cases hkey : f entry with
      | none => cases data <;> simp
      | some key =>
          simp only [Option.map_some, Option.pure_def, Option.bind_eq_bind, Option.bind_some,
            Option.bind_eq_some_iff, ih, Option.some.injEq]
          constructor
          · rintro ⟨rest, hrest, rfl⟩
            rw [hrest, List.map_cons]
          · intro h
            obtain ⟨first, rest, rfl, hfirst, hrest⟩ := List.map_eq_cons_iff.mp h.symm
            refine ⟨rest, hrest.symm, ?_⟩
            obtain ⟨hkey, hvalue⟩ := Prod.mk.inj hfirst
            rw [← hvalue, ← Option.some.inj hkey]

theorem lasting_map_some {entries : List (κ × ν)} {value : ν} :
    Dict.Lasting (entries.map fun entry => (some entry.1, entry.2)) value ↔
      Dict.Lasting entries value := by
  induction entries with
  | nil => simp [Dict.Lasting]
  | cons entry rest ih =>
      have hlater : (∀ later ∈ rest.map fun entry => (some entry.1, entry.2),
          later.1 ≠ some entry.1) ↔ ∀ later ∈ rest, later.1 ≠ entry.1 := by
        simp only [List.forall_mem_map, ne_eq, Option.some.injEq]
      rw [List.map_cons, Dict.lasting_cons, Dict.lasting_cons, ih, hlater]

end

theorem exists_collectSmatchReport_iff {s : Text} :
    (∃ smatchData, collectSmatchReport s = some smatchData) ↔ Readable s := by
  constructor
  · rintro ⟨smatchData, h⟩
    obtain ⟨data, hdata, -⟩ := Option.map_eq_some_iff.mp h
    have hlocated := (mapM_eq_some_iff _ _).mp hdata
    rw [Readable, locatedEntries, hlocated]
    simp only [List.forall_mem_map]
    exact fun entry _ => Option.some_ne_none entry.1
  · intro h
    have hkeys : ∀ entries : List (Option LineInfo × Function),
        (∀ entry ∈ entries, entry.1 ≠ none) →
        ∃ data : List (LineInfo × Function), entries = data.map fun e => (some e.1, e.2) := by
      intro entries hentries
      refine ⟨entries.filterMap fun entry => entry.1.map (·, entry.2), ?_⟩
      induction entries with
      | nil => rfl
      | cons entry rest ih =>
          obtain ⟨hentry, hrest⟩ := List.forall_mem_cons.mp hentries
          obtain ⟨location, hlocation⟩ := Option.ne_none_iff_exists'.mp hentry
          rw [List.filterMap_cons, hlocation, Option.map_some, List.map_cons, ← ih hrest,
            ← hlocation]
    obtain ⟨data, hdata⟩ := hkeys _ h
    exact ⟨_, Option.map_eq_some_iff.mpr ⟨data, (mapM_eq_some_iff _ _).mpr hdata, rfl⟩⟩

theorem mem_smatchFuncs {s : Text} {smatchData : SmatchData}
    (h : collectSmatchReport s = some smatchData) (func : Function) :
    func ∈ smatchFuncs smatchData ↔ LastNamed s func := by
  obtain ⟨data, hdata, rfl⟩ := Option.map_eq_some_iff.mp h
  have hlocated := (mapM_eq_some_iff _ _).mp hdata
  rw [LastNamed, locatedEntries, hlocated, lasting_map_some, ← Dict.mem_values_collect, smatchFuncs,
    List.mem_toFinset]
  rfl

/-! ## Blocks of reported functions -/

section

variable {ctx : Context} {s : Text} {prevDst src : Node}

def InBoth (ctx : Context) (prevDst src : Node) (func : Function) : Prop :=
  func ∈ frameFuncs ctx prevDst ∧ func ∈ frameFuncs ctx src

/--
The report is collected, and the block of two edges is inserted if and only if
both its ends lie in a function that the report names.
-/
def UsesReport (ctx : Context) (s : Text) (prevDst src : Node) : Prop :=
  ∃ smatchData, collectSmatchReport s = some smatchData ∧
    ((∃ h, blockRange ctx smatchData prevDst src = some ⟨prevDst, src, h⟩) ↔
      prevDst ≤ src ∧ ∃ func, InBoth ctx prevDst src func ∧ Named s func)

theorem blockRange_eq_some_iff {smatchData : SmatchData} :
    (∃ h, blockRange ctx smatchData prevDst src = some ⟨prevDst, src, h⟩) ↔
      prevDst ≤ src ∧ ∃ func, InBoth ctx prevDst src func ∧ func ∈ smatchFuncs smatchData := by
  have hshares : SharesFunction ctx smatchData prevDst src ↔
      ∃ func, InBoth ctx prevDst src func ∧ func ∈ smatchFuncs smatchData := by
    simp [SharesFunction, Finset.card_pos, Finset.Nonempty, InBoth, and_assoc]
  rw [← hshares, blockRange]
  split
  case isTrue h => simp [h]
  case isFalse h => simpa using h

/--
Exactly then is the block treated as the report says: if some function of the
block is named, some named one stands at the last entry of a location.
-/
theorem usesReport_iff (ctx : Context) (s : Text) (prevDst src : Node) :
    UsesReport ctx s prevDst src ↔
      Readable s ∧ (prevDst ≤ src → (∃ func, InBoth ctx prevDst src func ∧ Named s func) →
        ∃ func, InBoth ctx prevDst src func ∧ LastNamed s func) := by
  rw [← exists_collectSmatchReport_iff]
  constructor
  · rintro ⟨smatchData, hdata, hiff⟩
    refine ⟨⟨smatchData, hdata⟩, fun hle hnamed => ?_⟩
    obtain ⟨-, func, hboth, hfunc⟩ := blockRange_eq_some_iff.mp (hiff.mpr ⟨hle, hnamed⟩)
    exact ⟨func, hboth, (mem_smatchFuncs hdata func).mp hfunc⟩
  · rintro ⟨⟨smatchData, hdata⟩, hlast⟩
    refine ⟨smatchData, hdata, ?_⟩
    rw [blockRange_eq_some_iff]
    simp only [mem_smatchFuncs hdata]
    constructor
    · rintro ⟨hle, func, hboth, hfunc⟩
      exact ⟨hle, func, hboth, hfunc.named⟩
    · rintro ⟨hle, hnamed⟩
      exact ⟨hle, hlast hle hnamed⟩

end

def sharedLine : Text := "a.c:1 f() error\na.c:1 (null)() error\n".toList

def oneFunction : Context where
  findFrames _ := [⟨some ['f'], some ⟨"a.c".toList, 1⟩⟩]
  rows := []
  findLocationRange := probeRows []
  located := by simp
  mem_findLocationRange := mem_probeRows []

/-- The entry without a function replaces the one that names it. -/
theorem sharedLine_loses_function : ¬ UsesReport oneFunction sharedLine 1 2 := by
  rintro ⟨smatchData, hdata, hiff⟩
  have hcollect : (collectSmatchReport sharedLine).map smatchFuncs = some {"(null)".toList} := by
    decide +kernel
  rw [hdata, Option.map_some, Option.some.injEq] at hcollect
  have hboth : InBoth oneFunction 1 2 ['f'] := by
    constructor <;> decide
  have hnamed : Named sharedLine ['f'] := by
    rw [Named]
    decide +kernel
  obtain ⟨-, func, ⟨hfunc, -⟩, hkept⟩ :=
    blockRange_eq_some_iff.mp (hiff.mpr ⟨by decide, ['f'], hboth, hnamed⟩)
  have hf : func = ['f'] := by
    revert hfunc
    simp [frameFuncs, getAddrFuncs, oneFunction, ptToken]
  rw [hcollect, hf] at hkept
  revert hkept
  decide

end TdvfFuzz.FastMatcher
