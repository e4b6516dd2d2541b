import TdvfFuzz.Audit.Conservation

/-!
# Which file a result goes to

With `-t` every result is also written to one of two files, by whether the
analyzed list knew it.  A record that raises ends the loop: what was written
before it stays in all three files.
-/

namespace TdvfFuzz.Audit

open TdvfFuzz.Foundation

def Args.tmpNewFile (args : Args) : Text := args.outputFile ++ ".tmp.new".toList

def Args.tmpOldFile (args : Args) : Text := args.outputFile ++ ".tmp.old".toList

/-! ## One record -/

/-- The inner loop for `n` does not pass over the analyzed record `a`. -/
def Accepts (n a : Text) : Prop :=
  ∃ new verdict, newRecord n = .ok (some new) ∧
    judge new (strip a) = .ok verdict ∧ verdict ≠ .next

/-- What is written for the new record `n`, and which file it goes to. -/
structure Placed (resultListAnalyzed : List Text) (n : Text)
    (transferred : Transferred) : Prop where
  carries : Carries n transferred.record
  known : transferred.found = true ↔ ∃ a ∈ resultListAnalyzed, Accepts n a
  unknown : transferred.found = false → transferred.record = n

theorem ne_next_of_written {new : NewRecord} {a record : Text} {verdict : Verdict}
    (h : written new a verdict = some record) : verdict ≠ .next := by
  rintro rfl
  simp [written] at h

theorem placed_of_transferRecord {resultListAnalyzed : List Text} {n : Text}
    {transferred : Transferred}
    (hlist : ∀ a ∈ resultListAnalyzed, ';' ∉ a) (hn : ';' ∉ n)
    (h : transferRecord resultListAnalyzed n = .ok (some transferred)) :
    Placed resultListAnalyzed n transferred := by
  have hcarries := transferRecord_carries hlist hn h
  rcases transferRecord_ok h with ⟨hnone, -⟩ | ⟨new, hnew, hcases⟩
  · simp at hnone
  rcases hcases with ⟨a, verdict, record, hdecides, hwritten, hout⟩ | ⟨hpassed, hout⟩
  · obtain rfl : transferred = ⟨record, true⟩ := by simpa using hout
    have hmem := hdecides.mem
    obtain ⟨before, after, -, -, hjudge, -⟩ := hdecides
    have haccepts : Accepts n a :=
      ⟨new, verdict, hnew, hjudge, ne_next_of_written hwritten⟩
    exact ⟨hcarries, by simpa using ⟨a, hmem, haccepts⟩, by simp⟩
  · obtain rfl : transferred = ⟨n, false⟩ := by simpa using hout
    refine ⟨hcarries, ?_, fun _ => rfl⟩
    simp only [Bool.false_eq_true, false_iff]
    rintro ⟨a, hmem, new', verdict, hnew', hjudge, hverdict⟩
    obtain rfl : new = new' := by simpa [hnew] using hnew'
    have hnext := hpassed a hmem
    rw [hjudge] at hnext
    exact hverdict (by simpa using hnext)

/-! ## The loop -/

def outputText (transferred : List Transferred) : Text :=
  transferred.flatMap fun each => each.record ++ terminator

/-- What the loop writes to one of the two files of `-t`. -/
def sortedText (t found : Bool) (transferred : List Transferred) : Text :=
  outputText (transferred.filter fun each => t && each.found == found)

theorem foldl_write (t : Bool) (transferred : List Transferred) (start : Outputs) :
    transferred.foldl (Outputs.write · t) start =
      { analyzed := start.analyzed ++ outputText transferred
        old := start.old ++ sortedText t true transferred
        new := start.new ++ sortedText t false transferred } := by
  induction transferred generalizing start with
  | nil => simp [outputText, sortedText]
  | cons each rest ih =>
      rw [List.foldl_cons, ih]
      cases t <;> cases hfound : each.found <;>
        simp [Outputs.write, outputText, sortedText, hfound]

theorem marked_of_transferRecord_error {resultListAnalyzed : List Text} {n : Text} {e : PyError}
    (h : transferRecord resultListAnalyzed n = .error e) : n ≠ [] ∧ (resultId n).isSome := by
  by_contra hmarked
  rw [not_and_or, not_not, Option.not_isSome_iff_eq_none] at hmarked
  rcases hmarked with rfl | hid
  · simp [transferRecord] at h
  · simp [transferRecord, newRecord, hid] at h

/-- The loop ends with the list, or at the first record that raises. -/
theorem transferAll_stops {t : Bool} {resultListAnalyzed : List Text}
    (resultListNew : List Text) {start final : Outputs} {error : Option PyError}
    (h : transferAll t resultListAnalyzed resultListNew start = (final, error)) :
    ∃ done rest transferred,
      ((resultListNew.map strip).filter fun n => n ≠ [] ∧ (resultId n).isSome) =
        done ++ rest ∧
      List.Forall₂ (fun n each => transferRecord resultListAnalyzed n = .ok (some each))
        done transferred ∧
      final = transferred.foldl (Outputs.write · t) start ∧
      (error = none ∧ rest = [] ∨
        ∃ n more e, rest = n :: more ∧ error = some e ∧
          transferRecord resultListAnalyzed n = .error e) := by
  induction resultListNew generalizing start with
  | nil =>
      obtain ⟨rfl, rfl⟩ := Prod.mk.inj h
      exact ⟨[], [], [], by simp, .nil, rfl, .inl ⟨rfl, rfl⟩⟩
  | cons n more ih =>
      rw [transferAll] at h
      cases hrecord : transferRecord resultListAnalyzed (strip n) with
      | error e =>
          have hmarked := marked_of_transferRecord_error hrecord
          obtain ⟨rfl, rfl⟩ : start = final ∧ some e = error := by simpa [hrecord] using h
          rw [List.map_cons, List.filter_cons_of_pos (by simpa using hmarked)]
          exact ⟨[], _, [], rfl, .nil, rfl, .inr ⟨strip n, _, e, rfl, rfl, hrecord⟩⟩
      | ok outcome =>
          have hmarked := transferRecord_marked hrecord
          rw [hrecord] at h
          cases outcome with
          | none =>
              rw [List.map_cons, List.filter_cons_of_neg (by simpa using hmarked)]
              exact ih h
          | some each =>
              obtain ⟨done, rest, transferred, hsplit, htransfers, hfinal, hend⟩ := ih h
              rw [List.map_cons, List.filter_cons_of_pos (by simpa using hmarked), hsplit]
              exact ⟨strip n :: done, rest, each :: transferred, rfl,
                .cons hrecord htransfers, hfinal, hend⟩

theorem placed_of_transfers {dataAnalyzed dataNew : Text} {done rest : List Text}
    {transferred : List Transferred} (hsplit : markedRecords dataNew = done ++ rest)
    (h : List.Forall₂ (fun n each =>
      transferRecord (dataAnalyzed.splitOn ';') n = .ok (some each)) done transferred) :
    List.Forall₂ (Placed (dataAnalyzed.splitOn ';')) done transferred := by
  have hmarked : ∀ n ∈ done, ';' ∉ n := by
    intro n hn
    have hmem : n ∈ markedRecords dataNew := hsplit ▸ List.mem_append_left rest hn
    exact not_mem_of_mem_markedRecords hmem
  refine ((List.forall₂_and_left _ _).mpr ⟨hmarked, h⟩).imp ?_
  intro n each heach
  exact placed_of_transferRecord (fun a ha => not_mem_of_mem_splitOn ';' dataAnalyzed a ha)
    heach.1 heach.2

/-! ## The script -/

/-- The files the script leaves, with the records it wrote. -/
structure Leaves (args : Args) (files : Files) (transferred : List Transferred)
    (cleaned : Bool) (files' : Files) : Prop where
  analyzed : files' args.outputFile = some (outputText transferred)
  old : files' args.tmpOldFile =
    if cleaned then none else some (sortedText args.t true transferred)
  new : files' args.tmpNewFile =
    if cleaned then none else some (sortedText args.t false transferred)
  frame : ∀ name, name ≠ args.outputFile → name ≠ args.tmpOldFile →
    name ≠ args.tmpNewFile → files' name = files name

theorem Args.outputFile_ne (args : Args) :
    args.outputFile ≠ args.tmpNewFile ∧ args.outputFile ≠ args.tmpOldFile ∧
      args.tmpNewFile ≠ args.tmpOldFile := by
  refine ⟨fun h => ?_, fun h => ?_, fun h => ?_⟩
  · exact absurd (List.append_right_eq_self.mp h.symm) (by decide)
  · exact absurd (List.append_right_eq_self.mp h.symm) (by decide)
  · exact absurd (List.append_cancel_left h) (by decide)

theorem leaves_updates (args : Args) (files : Files) (transferred : List Transferred) :
    Leaves args files transferred false
      (Function.update (Function.update (Function.update files
        args.tmpNewFile (some (sortedText args.t false transferred)))
        args.tmpOldFile (some (sortedText args.t true transferred)))
        args.outputFile (some (outputText transferred))) := by
  obtain ⟨hne_new, hne_old, hne⟩ := args.outputFile_ne
  refine ⟨Function.update_self .., ?_, ?_, ?_⟩
  · simp [hne_old.symm]
  · simp [hne_new.symm, hne]
  · intro name houtput hold hnew
    simp [houtput, hold, hnew]

theorem Leaves.clean {args : Args} {files files' : Files} {transferred : List Transferred}
    (h : Leaves args files transferred false files') :
    Leaves args files transferred true
      (Function.update (Function.update files' args.tmpNewFile none) args.tmpOldFile none) := by
  obtain ⟨hne_new, hne_old, hne⟩ := args.outputFile_ne
  refine ⟨?_, by simp, by simp [hne], ?_⟩
  · simpa [hne_new, hne_old] using h.analyzed
  · intro name houtput hold hnew
    simpa [hold, hnew] using h.frame name houtput hold hnew

/-- What a run of the loop makes of the script's exit and its files. -/
theorem main_leaves {args : Args} {files : Files} {dataAnalyzed dataNew : Text}
    (hanalyzed : files args.inputAnalyzed = some dataAnalyzed)
    (hnew : files args.inputNew = some dataNew)
    (hforce : ¬ ((files args.outputFile).isSome ∧ args.force = false))
    {transferred : List Transferred} {error : Option PyError}
    (h : transferAll args.t (dataAnalyzed.splitOn ';') (dataNew.splitOn ';') {} =
      (transferred.foldl (Outputs.write · args.t) {}, error)) :
    (main args files).2 = error.elim .finished .raised ∧
      Leaves args files transferred (error.isNone && !args.t) (main args files).1 := by
  have hleaves := leaves_updates args files transferred
  rw [foldl_write] at h
  simp only [main, hnew, hanalyzed, if_neg hforce, h, List.nil_append]
  rw [← Args.tmpNewFile, ← Args.tmpOldFile]
  cases error with
  | some e => exact ⟨rfl, hleaves⟩
  | none =>
      dsimp only
      split_ifs with ht
      · have hkept : (Option.isNone (none : Option PyError) && !args.t) = false := by simp [ht]
        exact ⟨rfl, hkept ▸ hleaves⟩
      · have hcleaned : (Option.isNone (none : Option PyError) && !args.t) = true := by simp [ht]
        exact ⟨rfl, hcleaned ▸ hleaves.clean⟩

/-- The script refuses to run: an input is missing, or the output exists. -/
def Refuses (args : Args) (files : Files) : Prop :=
  files args.inputNew = none ∨ files args.inputAnalyzed = none ∨
    (files args.outputFile).isSome ∧ args.force = false

theorem main_refuses {args : Args} {files : Files} (h : Refuses args files) :
    ∃ message, main args files = (files, .failed message) := by
  unfold main
  cases hnew : files args.inputNew with
  | none => exact ⟨_, rfl⟩
  | some dataNew =>
      cases hanalyzed : files args.inputAnalyzed with
      | none => exact ⟨_, rfl⟩
      | some dataAnalyzed =>
          have hforce : (files args.outputFile).isSome ∧ args.force = false := by
            simpa [Refuses, hnew, hanalyzed] using h
          dsimp only
          rw [if_pos hforce]
          exact ⟨_, rfl⟩

/-- The records that are written, and the one at which the loop stops. -/
theorem main_places {args : Args} {files : Files} (hruns : ¬ Refuses args files) :
    ∃ dataAnalyzed dataNew done rest transferred,
      files args.inputAnalyzed = some dataAnalyzed ∧ files args.inputNew = some dataNew ∧
      markedRecords dataNew = done ++ rest ∧
      List.Forall₂ (Placed (dataAnalyzed.splitOn ';')) done transferred ∧
      (((main args files).2 = .finished ∧ rest = [] ∧
          Leaves args files transferred (!args.t) (main args files).1) ∨
        ∃ n more e, rest = n :: more ∧
          transferRecord (dataAnalyzed.splitOn ';') n = .error e ∧
          (main args files).2 = .raised e ∧
          Leaves args files transferred false (main args files).1) := by
  simp only [Refuses, not_or] at hruns
  obtain ⟨hnew, hanalyzed, hforce⟩ := hruns
  obtain ⟨dataNew, hnew⟩ := Option.ne_none_iff_exists'.mp hnew
  obtain ⟨dataAnalyzed, hanalyzed⟩ := Option.ne_none_iff_exists'.mp hanalyzed
  cases hall : transferAll args.t (dataAnalyzed.splitOn ';') (dataNew.splitOn ';') {} with
  | mk final error =>
      obtain ⟨done, rest, transferred, hsplit, htransfers, rfl, hend⟩ :=
        transferAll_stops _ hall
      obtain ⟨hexit, hleaves⟩ := main_leaves hanalyzed hnew hforce hall
      refine ⟨dataAnalyzed, dataNew, done, rest, transferred, hanalyzed, hnew, hsplit,
        placed_of_transfers hsplit htransfers, ?_⟩
      rcases hend with ⟨rfl, rfl⟩ | ⟨n, more, e, rfl, rfl, herror⟩
      · exact .inl ⟨hexit, rfl, by simpa using hleaves⟩
      · exact .inr ⟨n, more, e, rfl, herror, hexit, by simpa using hleaves⟩

/--
Either nothing is touched, or the marked records of the new report up to the
first that raises are written in order, each also to the file it belongs to:
verbatim to the new one exactly if the inner loop passes over every analyzed record.
-/
theorem main_partitions (args : Args) (files : Files) :
    (Refuses args files ∧ ∃ message, main args files = (files, .failed message)) ∨
    (¬ Refuses args files ∧ ∃ dataAnalyzed dataNew done rest transferred,
      files args.inputAnalyzed = some dataAnalyzed ∧ files args.inputNew = some dataNew ∧
      markedRecords dataNew = done ++ rest ∧
      List.Forall₂ (Placed (dataAnalyzed.splitOn ';')) done transferred ∧
      (((main args files).2 = .finished ∧ rest = [] ∧
          Leaves args files transferred (!args.t) (main args files).1) ∨
        ∃ n more e, rest = n :: more ∧
          transferRecord (dataAnalyzed.splitOn ';') n = .error e ∧
          (main args files).2 = .raised e ∧
          Leaves args files transferred false (main args files).1)) := by
  by_cases hrefuses : Refuses args files
  · exact .inl ⟨hrefuses, main_refuses hrefuses⟩
  · exact .inr ⟨hrefuses, main_places hrefuses⟩

end TdvfFuzz.Audit
