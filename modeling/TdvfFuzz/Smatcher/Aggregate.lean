import TdvfFuzz.Smatcher.Matcher

/-!
# Aggregating several campaigns

Coverage and reports are matched item by item.  An entry meets the coverage of
another item only if that item's own report has the entry as well.
-/

namespace TdvfFuzz.Smatcher

open TdvfFuzz.Foundation

section

variable (word : WordClass) (args : Args) (fs : FileSystem)

/-! ## What an item contributes -/

def coverageOf (inputItem : Text) : Finset Text :=
  match tryGetCoverage word args fs inputItem with
  | .ok cov => cov
  | .error _ => ∅

def reportOf (inputItem : Text) : Finset Entry :=
  match tryFindSmatchFile args fs inputItem with
  | .ok (some smatchFile) =>
      match parseSmatchFile fs smatchFile with
      | .ok sm => sm
      | .error _ => ∅
  | _ => ∅

/-- The item's own report has the entry and its own coverage the location. -/
def CoveredBy (inputItem : Text) (e : Entry) : Prop :=
  e ∈ reportOf args fs inputItem ∧ e.location ∈ coverageOf word args fs inputItem

variable {word args fs}

theorem mem_biUnion_smMap {cov : Finset Text} {sm : Finset Entry} {e : Entry} :
    e ∈ cov.biUnion (smMap sm) ↔ e ∈ sm ∧ e.location ∈ cov := by
  simp only [Finset.mem_biUnion, smMap, Finset.mem_filter]
  constructor
  · rintro ⟨line, hline, he, rfl⟩
    exact ⟨he, hline⟩
  · rintro ⟨he, hline⟩
    exact ⟨e.location, hline, he, rfl⟩

theorem visitItem_ok {report report' : Report} {inputItem : Text}
    (h : visitItem word args fs report inputItem = .ok report') (e : Entry) :
    (e ∈ report'.smatchSet ↔ e ∈ report.smatchSet ∨ e ∈ reportOf args fs inputItem) ∧
    (e ∈ report'.covered ↔ e ∈ report.covered ∨ CoveredBy word args fs inputItem e) := by
  unfold visitItem at h
  obtain ⟨cov, hcov, h⟩ := bind_eq_ok.mp h
  obtain ⟨smatchFile, hfile, h⟩ := bind_eq_ok.mp h
  cases smatchFile with
  | none =>
      obtain rfl : report = report' := by simpa using h
      simp [CoveredBy, reportOf, hfile]
  | some smatchFile =>
      obtain ⟨sm, hsm, h⟩ := bind_eq_ok.mp h
      obtain rfl : _ = report' := by simpa using h
      simp only [CoveredBy, reportOf, coverageOf, hfile, hsm, hcov, Finset.mem_union,
        mem_biUnion_smMap, and_self]

theorem visitItems_ok {report final : Report} {inputItems : List Text}
    (h : visitItems word args fs report inputItems = .ok final) (e : Entry) :
    (e ∈ final.smatchSet ↔
      e ∈ report.smatchSet ∨ ∃ item ∈ inputItems, e ∈ reportOf args fs item) ∧
    (e ∈ final.covered ↔
      e ∈ report.covered ∨ ∃ item ∈ inputItems, CoveredBy word args fs item e) := by
  induction inputItems generalizing report with
  | nil =>
      obtain rfl : report = final := by simpa [visitItems] using h
      simp
  | cons inputItem rest ih =>
      obtain ⟨next, hnext, h⟩ := bind_eq_ok.mp h
      obtain ⟨hset, hcovered⟩ := visitItem_ok hnext e
      obtain ⟨hset', hcovered'⟩ := ih h
      rw [hset', hset, hcovered', hcovered, List.exists_mem_cons_iff,
        List.exists_mem_cons_iff, or_assoc, or_assoc]
      exact ⟨Iff.rfl, Iff.rfl⟩

theorem start_ok {db db' : CoverageDb} {report : Report} (hload : args.load = false)
    (hsave : args.save = false) (h : start word args fs db = .ok (report, db')) :
    visitItems word args fs ⟨∅, ∅⟩ args.inputItems = .ok report := by
  have hloaded : loadDb args db = .ok ∅ := by simp [loadDb, hload]
  rw [start, hloaded, bind_ok] at h
  obtain ⟨final, hfinal, h⟩ := bind_eq_ok.mp h
  simp only [hsave, Bool.false_eq_true, if_false, Except.ok.injEq, Prod.mk.injEq] at h
  exact h.1 ▸ hfinal

end

/-! ## Entries and coverage of different items -/

/-- The verdict of an entry is that of the coverage of all items together. -/
structure Aggregates (word : WordClass) (args : Args) (fs : FileSystem)
    (report : Report) : Prop where
  covered_iff : ∀ e ∈ report.smatchSet, e ∈ report.covered ↔
    ∃ item ∈ args.inputItems, e.location ∈ coverageOf word args fs item
  subset : report.covered ⊆ report.smatchSet

/-- Coverage of an entry of some report always comes with the entry itself. -/
def MeetsInOneItem (word : WordClass) (args : Args) (fs : FileSystem) : Prop :=
  ∀ e : Entry, ∀ item ∈ args.inputItems, ∀ other ∈ args.inputItems,
    e ∈ reportOf args fs item → e.location ∈ coverageOf word args fs other →
    ∃ one ∈ args.inputItems, CoveredBy word args fs one e

theorem aggregates_iff (word : WordClass) (args : Args) (fs : FileSystem)
    (db db' : CoverageDb) (report : Report) (hload : args.load = false)
    (hsave : args.save = false) (h : start word args fs db = .ok (report, db')) :
    Aggregates word args fs report ↔ MeetsInOneItem word args fs := by
  have hrun := visitItems_ok (start_ok hload hsave h)
  simp only [Finset.notMem_empty, false_or] at hrun
  constructor
  · intro hagg e item hitem other hother he hlocation
    have hset := (hrun e).1.mpr ⟨item, hitem, he⟩
    exact (hrun e).2.mp ((hagg.covered_iff e hset).mpr ⟨other, hother, hlocation⟩)
  · intro hmeets
    refine ⟨fun e he => ?_, fun e he => ?_⟩
    · obtain ⟨item, hitem, hentry⟩ := (hrun e).1.mp he
      rw [(hrun e).2]
      constructor
      · rintro ⟨one, hone, -, hlocation⟩
        exact ⟨one, hone, hlocation⟩
      · rintro ⟨other, hother, hlocation⟩
        exact hmeets e item hitem other hother hentry hlocation
    · obtain ⟨one, hone, hentry, -⟩ := (hrun e).2.mp he
      exact (hrun e).1.mpr ⟨one, hone, hentry⟩

theorem meetsInOneItem_of_common_report (word : WordClass) (args : Args)
    (fs : FileSystem) (h : ∀ item ∈ args.inputItems, ∀ other ∈ args.inputItems,
      reportOf args fs item = reportOf args fs other) :
    MeetsInOneItem word args fs :=
  fun _ item hitem other hother he hlocation =>
    ⟨other, hother, h item hitem other hother ▸ he, hlocation⟩

/-! ## Two work directories with reports of their own -/

def asciiWord : WordClass := ⟨fun c => c.isAlphanum || c == '_', fun _ _ => rfl⟩

def campaignArgs (inputItems : List Text) : Args :=
  ⟨inputItems, none, false, false, false, false, "db".toList⟩

def campaignFiles : FileSystem where
  contents name :=
    if name = "A/target/smatch_warns.txt".toList then
      some (.decoded "a.c:1 f() warn\n".toList)
    else if name = "B/target/smatch_warns.txt".toList then
      some (.decoded "b.c:2 g() warn\n".toList)
    else if name = "A/traces/linecov.lst".toList then
      some (.decoded "c.c:3\n".toList)
    else if name = "B/traces/linecov.lst".toList then
      some (.decoded "a.c:1\nb.c:2\n".toList)
    else none
  isDir name := name = "A".toList ∨ name = "B".toList

def campaignItems : List Text := ["A".toList, "B".toList]

def entryA : Entry := ⟨"unclassified".toList, "a.c:1".toList, "f".toList⟩

def entryB : Entry := ⟨"unclassified".toList, "b.c:2".toList, "g".toList⟩

theorem start_campaigns :
    start asciiWord (campaignArgs campaignItems) campaignFiles (fun _ => none) =
      .ok (⟨{entryA, entryB}, {entryB}⟩, fun _ => none) := by
  have hrun : visitItems asciiWord (campaignArgs campaignItems) campaignFiles ⟨∅, ∅⟩
      campaignItems = .ok ⟨{entryA, entryB}, {entryB}⟩ := by decide +kernel
  have hload : loadDb (campaignArgs campaignItems) (fun _ => none) = .ok ∅ := rfl
  rw [start, hload, bind_ok, show (campaignArgs campaignItems).inputItems = campaignItems
    from rfl, hrun]
  rfl

theorem aggregates_iff_campaigns :
    Aggregates asciiWord (campaignArgs campaignItems) campaignFiles
        ⟨{entryA, entryB}, {entryB}⟩ ↔
      MeetsInOneItem asciiWord (campaignArgs campaignItems) campaignFiles :=
  aggregates_iff asciiWord (campaignArgs campaignItems) campaignFiles (fun _ => none)
    (fun _ => none) _ rfl rfl start_campaigns

/-- The second campaign reaches an entry of the first report, which stays uncovered. -/
theorem campaigns_not_aggregated :
    start asciiWord (campaignArgs campaignItems) campaignFiles (fun _ => none) =
      .ok (⟨{entryA, entryB}, {entryB}⟩, fun _ => none) ∧
    entryA.location ∈
      coverageOf asciiWord (campaignArgs campaignItems) campaignFiles "B".toList ∧
    ¬ Aggregates asciiWord (campaignArgs campaignItems) campaignFiles
      ⟨{entryA, entryB}, {entryB}⟩ := by
  have hreached : entryA.location ∈
      coverageOf asciiWord (campaignArgs campaignItems) campaignFiles "B".toList := by
    decide +kernel
  refine ⟨start_campaigns, hreached, fun h => ?_⟩
  have hcovered := (h.covered_iff entryA (by simp)).mpr
    ⟨"B".toList, by simp [campaignArgs, campaignItems], hreached⟩
  exact absurd hcovered (by decide +kernel)

end TdvfFuzz.Smatcher
