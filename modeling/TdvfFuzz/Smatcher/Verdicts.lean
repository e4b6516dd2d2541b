import TdvfFuzz.Smatcher.Summary

/-!
# Verdicts against one report

With one report for all items the covered and the uncovered entries partition
the report, and a further item can only improve the verdicts.
-/

namespace TdvfFuzz.Smatcher

open TdvfFuzz.Foundation

/-- Every item is matched against a file with the entries `sm`. -/
def CommonReport (args : Args) (fs : FileSystem) (sm : Finset Entry) : Prop :=
  ∀ item ∈ args.inputItems, ∃ smatchFile,
    tryFindSmatchFile args fs item = .ok (some smatchFile) ∧
      parseSmatchFile fs smatchFile = .ok sm

def Args.withItems (args : Args) (inputItems : List Text) : Args :=
  { args with inputItems := inputItems }

/-! ## The items are visited independently -/

/-- The options that decide how the files of an item are chosen and read. -/
structure SameReading (args args' : Args) : Prop where
  smatch : args.smatch = args'.smatch
  combine : args.combineCovFiles = args'.combineCovFiles
  ignore : args.ignoreErrors = args'.ignoreErrors

section

variable {word : WordClass} {args args' : Args} {fs : FileSystem}

theorem SameReading.combineCoverage (h : SameReading args args') (workDir : Text)
    (existingFiles : ℕ) (cov : Finset Text) (files : List Text) :
    combineCoverage word args fs workDir existingFiles cov files =
      combineCoverage word args' fs workDir existingFiles cov files := by
  induction files generalizing existingFiles cov with
  | nil => simp only [Smatcher.combineCoverage, h.ignore]
  | cons f rest ih => simp only [Smatcher.combineCoverage, h.combine, ih]

theorem SameReading.tryGetCoverage (h : SameReading args args') (item : Text) :
    tryGetCoverage word args fs item = tryGetCoverage word args' fs item := by
  simp only [Smatcher.tryGetCoverage, h.combineCoverage, h.ignore]

theorem SameReading.tryFindSmatchFile (h : SameReading args args') (item : Text) :
    tryFindSmatchFile args fs item = tryFindSmatchFile args' fs item := by
  simp only [Smatcher.tryFindSmatchFile, givenSmatch, h.smatch, h.ignore]

theorem SameReading.visitItems (h : SameReading args args') (report : Report)
    (items : List Text) :
    visitItems word args fs report items = visitItems word args' fs report items := by
  induction items generalizing report with
  | nil => rfl
  | cons item rest ih =>
      simp only [Smatcher.visitItems, visitItem, h.tryGetCoverage, h.tryFindSmatchFile, ih]

theorem SameReading.coveredBy (h : SameReading args args') (item : Text) (e : Entry) :
    CoveredBy word args fs item e ↔ CoveredBy word args' fs item e := by
  simp only [CoveredBy, reportOf, coverageOf, h.tryGetCoverage, h.tryFindSmatchFile]

end

theorem CommonReport.reportOf {args : Args} {fs : FileSystem} {sm : Finset Entry}
    (h : CommonReport args fs sm) {item : Text} (hitem : item ∈ args.inputItems) :
    reportOf args fs item = sm := by
  obtain ⟨smatchFile, hfile, hparse⟩ := h item hitem
  simp [Smatcher.reportOf, hfile, hparse]

theorem mem_covered_of_start {word : WordClass} {args : Args} {fs : FileSystem}
    {db db' : CoverageDb} {report : Report} (hload : args.load = false)
    (hsave : args.save = false) (h : start word args fs db = .ok (report, db')) (e : Entry) :
    e ∈ report.covered ↔ ∃ item ∈ args.inputItems, CoveredBy word args fs item e := by
  simpa using (visitItems_ok (start_ok hload hsave h) e).2

theorem CommonReport.smatchSet_eq {word : WordClass} {args : Args} {fs : FileSystem}
    {sm : Finset Entry} {db db' : CoverageDb} {report : Report}
    (hcommon : CommonReport args fs sm) (hitems : args.inputItems ≠ [])
    (hload : args.load = false) (hsave : args.save = false)
    (h : start word args fs db = .ok (report, db')) :
    report.smatchSet = sm ∧ report.covered ⊆ report.smatchSet := by
  have hrun := visitItems_ok (start_ok hload hsave h)
  simp only [Finset.notMem_empty, false_or] at hrun
  have hset : report.smatchSet = sm := by
    ext e
    rw [(hrun e).1]
    constructor
    · rintro ⟨item, hitem, he⟩
      exact hcommon.reportOf hitem ▸ he
    · intro he
      obtain ⟨item, hitem⟩ := List.exists_mem_of_ne_nil _ hitems
      exact ⟨item, hitem, (hcommon.reportOf hitem).symm ▸ he⟩
  refine ⟨hset, fun e he => ?_⟩
  obtain ⟨item, hitem, hentry, -⟩ := (hrun e).2.mp he
  rw [hset]
  exact hcommon.reportOf hitem ▸ hentry

/-! ## The verdicts of one run -/

/-- The sign of a function says which of its entries are covered. -/
structure SignOf (sm covered : Finset Entry) (k : Text) (sign : Sign) : Prop where
  cov : sign = .cov ↔ ∀ e ∈ sm, e.function = k → e ∈ covered
  notCov : sign = .notCov ↔ ∀ e ∈ sm, e.function = k → e ∉ covered
  partialCov : sign = .partialCov ↔
    ¬ (∀ e ∈ sm, e.function = k → e ∈ covered) ∧ ¬ ∀ e ∈ sm, e.function = k → e ∉ covered

structure Verdicts (sm : Finset Entry) (report : Report) : Prop where
  union : report.covered ∪ report.notCovered = sm
  disjoint : Disjoint report.covered report.notCovered
  rows : ∀ (view : View), ∀ k ∈ functions sm,
    ((view.functionRows report).filter fun row => row.function = k).map FunctionRow.sign =
      if view.shows report k then [covSign report k] else []
  unfiltered : ∀ view : View, view.classFilter = none → view.functionFilter = none →
    view.onlyNonCovered = false → ∀ k ∈ functions sm, view.shows report k = true
  signs : ∀ k ∈ functions sm, SignOf sm report.covered k (covSign report k)
  entries : ∀ row ∈ (summary report).classRows, row.entries = (ofClass row.cl sm).card

theorem filter_functionRows (view : View) {report : Report} {k : Text}
    (hk : k ∈ functions report.smatchSet) :
    ((view.functionRows report).filter fun row => row.function = k) =
      if view.shows report k then [view.functionRow report k] else [] := by
  have hmem : k ∈ (functions report.smatchSet).sort (· ≤ ·) := (Finset.mem_sort _).mpr hk
  rw [View.functionRows, List.filter_map, List.filter_filter]
  have hswap : (fun a => (decide ((view.functionRow report a).function = k) &&
      view.shows report a)) = fun a => (view.shows report a && decide (a = k)) :=
    funext fun a => Bool.and_comm ..
  have hcount : List.count k ((functions report.smatchSet).sort (· ≤ ·)) = 1 :=
    List.count_eq_one_of_mem (Finset.sort_nodup _ _) hmem
  simp only [Function.comp_def]
  rw [hswap, ← List.filter_filter, List.filter_eq, hcount]
  split <;> simp_all

theorem shows_of_unfiltered {view : View} {report : Report} {k : Text}
    (hclass : view.classFilter = none) (hfunction : view.functionFilter = none)
    (hall : view.onlyNonCovered = false) (hk : k ∈ functions report.smatchSet) :
    view.shows report k = true := by
  obtain ⟨e, he, hek⟩ := mem_functions.mp hk
  simp only [View.shows, hfunction, Option.all_none, true_and, decide_eq_true_eq, not_and]
  intro hcovered hnotCovered
  by_cases hcov : e ∈ report.covered
  · have : e ∈ view.fCovered report k := by
      simp [View.fCovered, View.matchesClass, hclass, hall, hcov, hek]
    simp [hcovered] at this
  · have : e ∈ view.fNotCovered report k := by
      simp [View.fNotCovered, View.matchesClass, hclass, Report.mem_notCovered, he, hcov, hek]
    simp [hnotCovered] at this

theorem Report.verdicts {report : Report} (hsubset : report.covered ⊆ report.smatchSet) :
    Verdicts report.smatchSet report where
  union := Finset.union_sdiff_of_subset hsubset
  disjoint := Finset.disjoint_sdiff
  rows := by
    intro view k hk
    rw [filter_functionRows view hk]
    split <;> rfl
  unfiltered := fun _ hclass hfunction hall _ hk =>
    shows_of_unfiltered hclass hfunction hall hk
  signs := by
    intro k hk
    have hcov := covSign_eq_cov hk
    have hnotCov := covSign_eq_notCov (k := k) hsubset
    refine ⟨hcov, hnotCov, ?_⟩
    rw [← hcov, ← hnotCov]
    cases covSign report k <;> simp
  entries := by
    intro row hrow
    obtain ⟨cl, -, rfl⟩ := List.mem_map.mp hrow
    exact classRow_entries hsubset cl

/-! ## A further item -/

/-- No entry and no function fares worse in the second report. -/
structure Improves (sm : Finset Entry) (report report' : Report) : Prop where
  covered : report.covered ⊆ report'.covered
  cov : ∀ k ∈ functions sm, covSign report k = .cov → covSign report' k = .cov
  partialCov : ∀ k ∈ functions sm, covSign report k = .partialCov →
    covSign report' k ≠ .notCov

theorem Verdicts.improves {sm : Finset Entry} {report report' : Report}
    (h : Verdicts sm report) (h' : Verdicts sm report')
    (hcovered : report.covered ⊆ report'.covered) : Improves sm report report' where
  covered := hcovered
  cov := by
    intro k hk hsign
    have hall := (h.signs k hk).cov.mp hsign
    exact (h'.signs k hk).cov.mpr fun e he hek => hcovered (hall e he hek)
  partialCov := by
    intro k hk hsign hsign'
    have hnone := (h'.signs k hk).notCov.mp hsign'
    exact ((h.signs k hk).partialCov.mp hsign).2
      fun e he hek hcov => hnone e he hek (hcovered hcov)

theorem verdicts_improve (word : WordClass) (args : Args) (fs : FileSystem)
    (db db' : CoverageDb) (report : Report) (sm : Finset Entry)
    (hload : args.load = false) (hsave : args.save = false) (hitems : args.inputItems ≠ [])
    (hcommon : CommonReport args fs sm) (h : start word args fs db = .ok (report, db')) :
    Verdicts sm report ∧
    ∀ (before after : List Text) (item : Text) (report' : Report) (db'' : CoverageDb),
      args.inputItems = before ++ after →
      CommonReport (args.withItems (before ++ item :: after)) fs sm →
      start word (args.withItems (before ++ item :: after)) fs db = .ok (report', db'') →
      Verdicts sm report' ∧ Improves sm report report' := by
  have hverdicts : Verdicts sm report := by
    obtain ⟨rfl, hsubset⟩ := hcommon.smatchSet_eq hitems hload hsave h
    exact report.verdicts hsubset
  refine ⟨hverdicts, ?_⟩
  intro before after item report' db'' hsplit hcommon' h'
  have hload' : (args.withItems (before ++ item :: after)).load = false := hload
  have hsave' : (args.withItems (before ++ item :: after)).save = false := hsave
  have hverdicts' : Verdicts sm report' := by
    obtain ⟨rfl, hsubset⟩ := hcommon'.smatchSet_eq (by simp [Args.withItems]) hload' hsave' h'
    exact report'.verdicts hsubset
  refine ⟨hverdicts', hverdicts.improves hverdicts' ?_⟩
  intro e he
  obtain ⟨one, hone, hcovered⟩ := (mem_covered_of_start hload hsave h e).mp he
  rw [mem_covered_of_start hload' hsave' h']
  have hreading : SameReading args (args.withItems (before ++ item :: after)) :=
    ⟨rfl, rfl, rfl⟩
  refine ⟨one, ?_, (hreading.coveredBy one e).mp hcovered⟩
  simp only [Args.withItems, hsplit, List.mem_append, List.mem_cons] at hone ⊢
  tauto

def commonArgs (inputItems : List Text) : Args :=
  { campaignArgs inputItems with smatch := some "A/target/smatch_warns.txt".toList }

/-- The first work directory misses the entry and the second one covers it. -/
theorem verdicts_improve_commonArgs :
    Verdicts {entryA} ⟨{entryA}, ∅⟩ ∧ Verdicts {entryA} ⟨{entryA}, {entryA}⟩ ∧
      Improves {entryA} ⟨{entryA}, ∅⟩ ⟨{entryA}, {entryA}⟩ := by
  have hfile : ∀ items : List Text, CommonReport (commonArgs items) campaignFiles {entryA} := by
    intro items item hitem
    exact ⟨"A/target/smatch_warns.txt".toList, rfl, by decide +kernel⟩
  have hfirst : visitItems asciiWord (commonArgs ["A".toList]) campaignFiles ⟨∅, ∅⟩
      ["A".toList] = .ok ⟨{entryA}, ∅⟩ := by decide +kernel
  have hboth : visitItems asciiWord (commonArgs campaignItems) campaignFiles ⟨∅, ∅⟩
      campaignItems = .ok ⟨{entryA}, {entryA}⟩ := by decide +kernel
  have hstart : ∀ (items : List Text) (report : Report),
      visitItems asciiWord (commonArgs items) campaignFiles ⟨∅, ∅⟩ items = .ok report →
      start asciiWord (commonArgs items) campaignFiles (fun _ => none) =
        .ok (report, fun _ => none) := by
    intro items report h
    have hload : loadDb (commonArgs items) (fun _ => none) = .ok ∅ := rfl
    rw [start, hload, bind_ok, show (commonArgs items).inputItems = items from rfl, h]
    rfl
  obtain ⟨hverdicts, hextend⟩ := verdicts_improve asciiWord (commonArgs ["A".toList])
    campaignFiles (fun _ => none) (fun _ => none) ⟨{entryA}, ∅⟩ {entryA} rfl rfl (by decide)
    (hfile _) (hstart _ _ hfirst)
  exact ⟨hverdicts, hextend ["A".toList] [] "B".toList _ (fun _ => none) rfl (hfile _)
    (hstart _ _ hboth)⟩

end TdvfFuzz.Smatcher
