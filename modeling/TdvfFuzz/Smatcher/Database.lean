import TdvfFuzz.Smatcher.Verdicts

/-!
# Runs that share a database

A run with `--save` adds what it covers to the database.  The sum then takes
the place of the run's own result, so the report counts entries that earlier
runs covered although `--load` was not given.
-/

namespace TdvfFuzz.Smatcher

open TdvfFuzz.Foundation

structure Invocation where
  args : Args
  fs : FileSystem
  view : View

namespace Invocation

/-- What the run prints, or why it stops, and the database afterwards. -/
def run (word : WordClass) (inv : Invocation) (db : CoverageDb) :
    Except Stop Printed × CoverageDb :=
  match start word inv.args inv.fs db with
  | .error stop => (.error stop, db)
  | .ok (report, db') => (.ok (printed inv.view report), db')

def withoutSave (inv : Invocation) : Invocation :=
  { inv with args := { inv.args with save := false } }

def content (inv : Invocation) (db : CoverageDb) : Finset Entry := (db inv.args.dbFile).getD ∅

def Covers (word : WordClass) (inv : Invocation) (e : Entry) : Prop :=
  ∃ item ∈ inv.args.inputItems, CoveredBy word inv.args inv.fs item e

/-- The files of all items can be read. -/
def Completes (word : WordClass) (inv : Invocation) : Prop :=
  ∃ report, visitItems word inv.args inv.fs ⟨∅, ∅⟩ inv.args.inputItems = .ok report

end Invocation

/-- A property of every run of a history, with the database it starts from. -/
def AllRuns (word : WordClass) (P : CoverageDb → Invocation → Prop) :
    CoverageDb → List Invocation → Prop
  | _, [] => True
  | db, inv :: history => P db inv ∧ AllRuns word P (inv.run word db).2 history

theorem AllRuns.congr {word : WordClass} {P Q : CoverageDb → Invocation → Prop}
    (hPQ : ∀ db inv, P db inv ↔ Q db inv) (db : CoverageDb) (history : List Invocation) :
    AllRuns word P db history ↔ AllRuns word Q db history := by
  induction history generalizing db with
  | nil => rfl
  | cons inv history ih => rw [AllRuns, AllRuns, hPQ, ih]

/-! ## The law of a run -/

/-- The database collects what is covered, and the report stays that of the run. -/
structure Lawful (word : WordClass) (db : CoverageDb) (inv : Invocation) : Prop where
  saved : inv.args.save = true → ∀ report, (inv.run word db).1 = .ok report →
    ∃ content, (inv.run word db).2 = Function.update db inv.args.dbFile (some content) ∧
      ∀ e, e ∈ content ↔ e ∈ inv.content db ∨ inv.Covers word e
  unsaved : inv.args.save = false → (inv.run word db).2 = db
  stopped : ∀ stop, (inv.run word db).1 = .error stop → (inv.run word db).2 = db
  ownInputs : inv.args.load = false → ∀ other : CoverageDb,
    (inv.run word db).1 = (inv.withoutSave.run word other).1

/-- A run that saves and does not load finds only entries that it covers itself. -/
def FindsOwnEntries (word : WordClass) (db : CoverageDb) (inv : Invocation) : Prop :=
  inv.args.save = true → inv.args.load = false → inv.Completes word →
    ∀ e ∈ inv.content db, inv.Covers word e

section

variable {word : WordClass} {inv : Invocation} {db : CoverageDb}

theorem run_of_load_eq_false (hload : inv.args.load = false) : inv.run word db =
    match visitItems word inv.args inv.fs ⟨∅, ∅⟩ inv.args.inputItems with
    | .error stop => (.error stop, db)
    | .ok report =>
        if inv.args.save then
          (.ok (printed inv.view ⟨report.smatchSet, report.covered ∪ inv.content db⟩),
            Function.update db inv.args.dbFile (some (report.covered ∪ inv.content db)))
        else (.ok (printed inv.view report), db) := by
  have hloaded : loadDb inv.args db = .ok ∅ := by simp [loadDb, hload]
  rw [Invocation.run, start, hloaded, bind_ok]
  cases visitItems word inv.args inv.fs ⟨∅, ∅⟩ inv.args.inputItems with
  | error stop => rfl
  | ok report => cases hsave : inv.args.save <;> simp [Invocation.content]

theorem run_withoutSave (hload : inv.args.load = false) (other : CoverageDb) :
    (inv.withoutSave.run word other).1 =
      match visitItems word inv.args inv.fs ⟨∅, ∅⟩ inv.args.inputItems with
      | .error stop => .error stop
      | .ok report => .ok (printed inv.view report) := by
  have hreading : SameReading inv.withoutSave.args inv.args := ⟨rfl, rfl, rfl⟩
  have hload' : inv.withoutSave.args.load = false := hload
  rw [run_of_load_eq_false hload', hreading.visitItems]
  simp only [Invocation.withoutSave]
  cases visitItems word inv.args inv.fs ⟨∅, ∅⟩ inv.args.inputItems <;> rfl

/-- The printed count of covered entries tells a larger set from the run's own. -/
theorem printed_union_eq {view : View} {sm covered content : Finset Entry} :
    printed view ⟨sm, covered ∪ content⟩ = printed view ⟨sm, covered⟩ ↔ content ⊆ covered := by
  constructor
  · intro h
    have hcard : (covered ∪ content).card = covered.card :=
      congrArg (fun p => p.summary.covered) h
    have hunion : covered = covered ∪ content :=
      Finset.eq_of_subset_of_card_le Finset.subset_union_left hcard.le
    exact Finset.union_eq_left.mp hunion.symm
  · intro h
    rw [Finset.union_eq_left.mpr h]

theorem ownInputs_iff : (inv.args.load = false → ∀ other : CoverageDb,
      (inv.run word db).1 = (inv.withoutSave.run word other).1) ↔
    FindsOwnEntries word db inv := by
  unfold FindsOwnEntries
  cases hload : inv.args.load with
  | true => simp
  | false =>
      simp only [run_of_load_eq_false hload, run_withoutSave hload, Invocation.Completes]
      cases hitems : visitItems word inv.args inv.fs ⟨∅, ∅⟩ inv.args.inputItems with
      | error stop => simp
      | ok report =>
          cases hsave : inv.args.save with
          | false => simp
          | true =>
              have hcovers : ∀ e, inv.Covers word e ↔ e ∈ report.covered := fun e => by
                simpa [Invocation.Covers] using (visitItems_ok hitems e).2.symm
              obtain ⟨smatchSet, covered⟩ := report
              simpa [hcovers, Finset.subset_iff] using printed_union_eq

theorem run_saved (hsave : inv.args.save = true) {report : Printed}
    (h : (inv.run word db).1 = .ok report) :
    ∃ content, (inv.run word db).2 = Function.update db inv.args.dbFile (some content) ∧
      ∀ e, e ∈ content ↔ e ∈ inv.content db ∨ inv.Covers word e := by
  cases hstart : start word inv.args inv.fs db with
  | error stop => simp [Invocation.run, hstart] at h
  | ok result =>
      simp only [Invocation.run, hstart]
      obtain ⟨loaded, hloaded, hrest⟩ := bind_eq_ok.mp hstart
      obtain ⟨final, hfinal, hrest⟩ := bind_eq_ok.mp hrest
      simp only [hsave, if_true, Except.ok.injEq] at hrest
      obtain rfl := hrest
      refine ⟨final.covered ∪ inv.content db, rfl, fun e => ?_⟩
      have hcovered := (visitItems_ok hfinal e).2
      have hsubset : e ∈ loaded → e ∈ inv.content db := by
        unfold loadDb at hloaded
        unfold Invocation.content
        split at hloaded
        · split at hloaded
          case h_1 covered hdb =>
            obtain rfl : covered = loaded := by simpa using hloaded
            simp [hdb]
          case h_2 => simp at hloaded
        · obtain rfl : ∅ = loaded := by simpa using hloaded
          simp
      rw [Finset.mem_union, hcovered, Invocation.Covers]
      constructor
      · rintro ((he | he) | he)
        · exact .inl (hsubset he)
        · exact .inr he
        · exact .inl he
      · rintro (he | he)
        · exact .inr he
        · exact .inl (.inr he)

theorem run_unsaved (hsave : inv.args.save = false) : (inv.run word db).2 = db := by
  unfold Invocation.run
  cases hstart : start word inv.args inv.fs db with
  | error stop => rfl
  | ok result =>
      obtain ⟨loaded, -, hrest⟩ := bind_eq_ok.mp hstart
      obtain ⟨final, -, hrest⟩ := bind_eq_ok.mp hrest
      simp only [hsave, Bool.false_eq_true, if_false, Except.ok.injEq] at hrest
      obtain rfl := hrest
      rfl

theorem run_stopped {stop : Stop} (h : (inv.run word db).1 = .error stop) :
    (inv.run word db).2 = db := by
  unfold Invocation.run at h ⊢
  cases hstart : start word inv.args inv.fs db with
  | error stop => rfl
  | ok result => simp [hstart] at h

theorem lawful_iff : Lawful word db inv ↔ FindsOwnEntries word db inv := by
  constructor
  · intro h
    exact ownInputs_iff.mp h.ownInputs
  · intro h
    exact ⟨fun hsave report => run_saved hsave, run_unsaved, fun stop => run_stopped,
      ownInputs_iff.mpr h⟩

end

/-! ## Histories -/

theorem history_lawful_iff (word : WordClass) (db : CoverageDb) (history : List Invocation) :
    AllRuns word (Lawful word) db history ↔ AllRuns word (FindsOwnEntries word) db history :=
  AllRuns.congr (fun _ _ => lawful_iff) db history

def savingRun (item : Text) : Invocation :=
  ⟨{ campaignArgs [item] with save := true }, campaignFiles, {}⟩

/-- The second run covers nothing, and its report counts the entry of the first one. -/
theorem saved_entry_reported :
    ((savingRun "A".toList).run asciiWord fun _ => none).1.toOption.map (·.summary.covered) =
      some 0 ∧
    ((savingRun "A".toList).run asciiWord
      ((savingRun "B".toList).run asciiWord fun _ => none).2).1.toOption.map
        (·.summary.covered) = some 1 ∧
    ¬ AllRuns asciiWord (Lawful asciiWord) (fun _ => none)
      [savingRun "B".toList, savingRun "A".toList] := by
  have hfirst : ((savingRun "A".toList).run asciiWord fun _ => none).1.toOption.map
      (·.summary.covered) = some 0 := by decide +kernel
  have hsecond : ((savingRun "A".toList).run asciiWord
      ((savingRun "B".toList).run asciiWord fun _ => none).2).1.toOption.map
        (·.summary.covered) = some 1 := by decide +kernel
  refine ⟨hfirst, hsecond, fun h => ?_⟩
  have hown := h.2.1.ownInputs rfl fun _ => none
  have hnone : ((savingRun "A".toList).withoutSave.run asciiWord fun _ => none).1.toOption.map
      (·.summary.covered) = some 0 := by decide +kernel
  rw [← hown, hsecond] at hnone
  simp at hnone

end TdvfFuzz.Smatcher
