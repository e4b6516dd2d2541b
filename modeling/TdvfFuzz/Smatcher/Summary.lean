import Mathlib.Algebra.GroupWithZero.Nat
import Mathlib.Data.Char
import Mathlib.Data.Finset.Sort
import Mathlib.Data.List.Lex
import Mathlib.Order.Lattice
import TdvfFuzz.Smatcher.Aggregate

/-!
# The printed report

The second half of `start`: what is printed from the two sets of entries.  The
percentages are quotients of the numbers printed in front of them.
-/

namespace TdvfFuzz.Smatcher

open TdvfFuzz.Foundation

/-! ## Derived sets -/

/-- `set([f for c, l, f in entries])` -/
def functions (entries : Finset Entry) : Finset Text := entries.image Entry.function

def ofClass (cl : Text) (entries : Finset Entry) : Finset Entry :=
  entries.filter (·.classification = cl)

namespace Report

def notCovered (report : Report) : Finset Entry := report.smatchSet \ report.covered

def coveredFuncs (report : Report) : Finset Text := functions report.covered

def notCoveredFuncs (report : Report) : Finset Text :=
  functions report.notCovered \ report.coveredFuncs

def partiallyCoveredFuncs (report : Report) : Finset Text :=
  functions report.notCovered ∩ report.coveredFuncs

end Report

/-! ## The summary -/

/-- The classes in the order of their rows. -/
def classes : List Text :=
  ["safe".toList, "concern".toList, "wrapper".toList, "excluded".toList, "trusted".toList,
    "unclassified".toList]

/-- The classes without a part in the last line of the summary. -/
def disregarded : List Text := ["excluded".toList, "wrapper".toList, "unclassified".toList]

/-- `Covered '{cl}' smatch entries: {covered}/{entries} (functions {..}/{..})` -/
structure ClassRow where
  cl : Text
  covered : ℕ
  entries : ℕ
  coveredFunctions : ℕ
  functions : ℕ
  deriving DecidableEq, Repr

def classRow (report : Report) (cl : Text) : ClassRow :=
  let coveredClass := ofClass cl report.covered
  let notCoveredClass := ofClass cl report.notCovered
  let clCoveredFuncs := functions coveredClass
  let clNotCoveredFuncs := functions notCoveredClass \ clCoveredFuncs
  { cl := cl
    covered := coveredClass.card
    entries := coveredClass.card + notCoveredClass.card
    coveredFunctions := clCoveredFuncs.card
    functions := clNotCoveredFuncs.card + clCoveredFuncs.card }

structure Summary where
  coveredFuncs : ℕ
  notCoveredFuncs : ℕ
  partiallyCoveredFuncs : ℕ
  covered : ℕ
  notCovered : ℕ
  classRows : List ClassRow
  totalCovered : ℕ
  totalEntries : ℕ
  deriving DecidableEq, Repr

def summary (report : Report) : Summary :=
  let classRows := classes.map (classRow report)
  let nonExcl := classRows.filter fun row => row.cl ∉ disregarded
  { coveredFuncs := report.coveredFuncs.card
    notCoveredFuncs := report.notCoveredFuncs.card
    partiallyCoveredFuncs := report.partiallyCoveredFuncs.card
    covered := report.covered.card
    notCovered := report.notCovered.card
    classRows := classRows
    totalCovered := (nonExcl.map ClassRow.covered).sum
    totalEntries := (nonExcl.map ClassRow.entries).sum }

/-! ## Functions and their signs -/

inductive Sign where
  | cov
  | notCov
  | partialCov
  deriving DecidableEq, Repr

def covSign (report : Report) (k : Text) : Sign :=
  if k ∈ report.partiallyCoveredFuncs then .partialCov
  else if k ∈ report.coveredFuncs then .cov
  else .notCov

/-- The options of the listing; a filter is `re.match` of a pattern that is not empty. -/
structure View where
  onlySummary : Bool := false
  onlyNonCovered : Bool := false
  onlyFuncs : Bool := false
  classFilter : Option (Text → Bool) := none
  functionFilter : Option (Text → Bool) := none

/-- What is printed for one function, its entries only without `--only-funcs`. -/
structure FunctionRow where
  sign : Sign
  function : Text
  covered : Finset Entry
  notCovered : Finset Entry
  deriving DecidableEq

namespace View

def matchesClass (view : View) (e : Entry) : Bool :=
  view.classFilter.all fun classRe => classRe e.classification

def fCovered (view : View) (report : Report) (k : Text) : Finset Entry :=
  report.covered.filter fun e => e.function = k ∧ view.matchesClass e ∧ !view.onlyNonCovered

def fNotCovered (view : View) (report : Report) (k : Text) : Finset Entry :=
  report.notCovered.filter fun e => e.function = k ∧ view.matchesClass e

/-- Whether the listing has a row for a function of the report. -/
def shows (view : View) (report : Report) (k : Text) : Bool :=
  view.functionFilter.all (· k) ∧
    ¬ (view.fCovered report k = ∅ ∧ view.fNotCovered report k = ∅)

def functionRow (view : View) (report : Report) (k : Text) : FunctionRow where
  sign := covSign report k
  function := k
  covered := if view.onlyFuncs then ∅ else view.fCovered report k
  notCovered := if view.onlyFuncs then ∅ else view.fNotCovered report k

/-- `groupby(sorted(smatch_set))` by function: each function once, in their order. -/
def functionRows (view : View) (report : Report) : List FunctionRow :=
  (((functions report.smatchSet).sort (· ≤ ·)).filter (view.shows report)).map
    (view.functionRow report)

end View

structure Printed where
  summary : Summary
  functionRows : Option (List FunctionRow)
  deriving DecidableEq

def printed (view : View) (report : Report) : Printed where
  summary := summary report
  functionRows := if view.onlySummary then none else some (view.functionRows report)

/-! ## Entries behind the derived sets -/

theorem mem_functions {entries : Finset Entry} {k : Text} :
    k ∈ functions entries ↔ ∃ e ∈ entries, e.function = k := Finset.mem_image

theorem mem_ofClass {cl : Text} {entries : Finset Entry} {e : Entry} :
    e ∈ ofClass cl entries ↔ e ∈ entries ∧ e.classification = cl := Finset.mem_filter

theorem Report.mem_notCovered {report : Report} {e : Entry} :
    e ∈ report.notCovered ↔ e ∈ report.smatchSet ∧ e ∉ report.covered := Finset.mem_sdiff

theorem classRow_entries {report : Report} (hsubset : report.covered ⊆ report.smatchSet)
    (cl : Text) : (classRow report cl).entries = (ofClass cl report.smatchSet).card := by
  have hdisjoint : Disjoint (ofClass cl report.covered) (ofClass cl report.notCovered) := by
    rw [Finset.disjoint_left]
    intro e hcovered hnot
    exact (Report.mem_notCovered.mp (mem_ofClass.mp hnot).1).2 (mem_ofClass.mp hcovered).1
  have hunion : ofClass cl report.covered ∪ ofClass cl report.notCovered =
      ofClass cl report.smatchSet := by
    rw [ofClass, ofClass, ofClass, ← Finset.filter_union, Report.notCovered,
      Finset.union_sdiff_of_subset hsubset]
  rw [classRow, ← hunion, Finset.card_union_of_disjoint hdisjoint]

theorem mem_functionRows {view : View} {report : Report} {row : FunctionRow} :
    row ∈ view.functionRows report ↔ ∃ k ∈ functions report.smatchSet,
      view.shows report k = true ∧ row = view.functionRow report k := by
  simp only [View.functionRows, List.mem_map, List.mem_filter, Finset.mem_sort, and_assoc,
    eq_comm (a := row)]

theorem nodup_functionRows (view : View) (report : Report) :
    ((view.functionRows report).map FunctionRow.function).Nodup := by
  have hmap : (view.functionRows report).map FunctionRow.function =
      ((functions report.smatchSet).sort (· ≤ ·)).filter (view.shows report) := by
    rw [View.functionRows, List.map_map]
    exact List.map_id _
  rw [hmap]
  exact (Finset.sort_nodup _ _).filter _

/-! ## Signs by entries -/

theorem Report.mem_coveredFuncs {report : Report} {k : Text} :
    k ∈ report.coveredFuncs ↔ ∃ e ∈ report.covered, e.function = k := mem_functions

theorem Report.mem_partiallyCoveredFuncs {report : Report} {k : Text} :
    k ∈ report.partiallyCoveredFuncs ↔
      (∃ e ∈ report.smatchSet, e ∉ report.covered ∧ e.function = k) ∧
        ∃ e ∈ report.covered, e.function = k := by
  simp only [Report.partiallyCoveredFuncs, Report.coveredFuncs, Finset.mem_inter,
    mem_functions, Report.mem_notCovered, and_assoc]

theorem covSign_eq_cov {report : Report} {k : Text} (hk : k ∈ functions report.smatchSet) :
    covSign report k = .cov ↔
      ∀ e ∈ report.smatchSet, e.function = k → e ∈ report.covered := by
  obtain ⟨some, hsome, hfunction⟩ := mem_functions.mp hk
  unfold covSign
  constructor
  · intro h e he hek
    by_contra hnot
    split at h
    · simp at h
    · split at h
      case isTrue hpartial hcov =>
        exact hpartial (Report.mem_partiallyCoveredFuncs.mpr
          ⟨⟨e, he, hnot, hek⟩, Report.mem_coveredFuncs.mp hcov⟩)
      case isFalse => simp at h
  · intro h
    rw [if_neg, if_pos (Report.mem_coveredFuncs.mpr ⟨some, h some hsome hfunction, hfunction⟩)]
    rw [Report.mem_partiallyCoveredFuncs]
    rintro ⟨⟨e, he, hnot, hek⟩, -⟩
    exact hnot (h e he hek)

theorem covSign_eq_notCov {report : Report} (hsubset : report.covered ⊆ report.smatchSet)
    {k : Text} : covSign report k = .notCov ↔
      ∀ e ∈ report.smatchSet, e.function = k → e ∉ report.covered := by
  unfold covSign
  constructor
  · intro h e he hek hcov
    split at h
    · simp at h
    · rw [if_pos (Report.mem_coveredFuncs.mpr ⟨e, hcov, hek⟩)] at h
      simp at h
  · intro h
    have hnone : ¬ ∃ e ∈ report.covered, e.function = k := by
      rintro ⟨e, hcov, hek⟩
      exact h e (hsubset hcov) hek hcov
    rw [if_neg fun hpartial => hnone (Report.mem_partiallyCoveredFuncs.mp hpartial).2,
      if_neg fun hcov => hnone (Report.mem_coveredFuncs.mp hcov)]

theorem covSign_eq_partialCov {report : Report}
    (hsubset : report.covered ⊆ report.smatchSet) {k : Text}
    (hk : k ∈ functions report.smatchSet) : covSign report k = .partialCov ↔
      (∃ e ∈ report.smatchSet, e.function = k ∧ e ∈ report.covered) ∧
        ∃ e ∈ report.smatchSet, e.function = k ∧ e ∉ report.covered := by
  have hcov := covSign_eq_cov hk
  have hnotCov := covSign_eq_notCov (k := k) hsubset
  cases hsign : covSign report k with
  | cov =>
      have hall := hcov.mp hsign
      simp only [reduceCtorEq, false_iff]
      rintro ⟨-, e, he, hek, hnot⟩
      exact hnot (hall e he hek)
  | notCov =>
      have hnone := hnotCov.mp hsign
      simp only [reduceCtorEq, false_iff]
      rintro ⟨⟨e, he, hek, hcovered⟩, -⟩
      exact hnone e he hek hcovered
  | partialCov =>
      rw [hsign] at hcov hnotCov
      simp only [reduceCtorEq, false_iff, not_forall] at hcov hnotCov
      obtain ⟨e, he, hek, hnot⟩ := hcov
      obtain ⟨e', he', hek', hcovered⟩ := hnotCov
      simp only [true_iff]
      exact ⟨⟨e', he', hek', not_not.mp hcovered⟩, e, he, hek, hnot⟩

end TdvfFuzz.Smatcher
