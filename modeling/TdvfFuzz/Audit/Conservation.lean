import TdvfFuzz.Audit.Matching

/-!
# Nothing with a marker is lost

Records of the new report without an `{id}` marker are skipped by an explicit
guard.  Every other non-blank record is written exactly once, in order.
-/

namespace TdvfFuzz.Audit

open TdvfFuzz.Foundation

/-- The stripped non-blank records of a report that carry a marker. -/
def markedRecords (report : Text) : List Text :=
  ((report.splitOn ';').map strip).filter fun n =>
    n ≠ [] ∧ (resultId n).isSome

/-- The record written for `n` contains `n` and no record separator. -/
def Carries (n record : Text) : Prop := n <:+: record ∧ ';' ∉ record

theorem newRecord_ok {n : Text} {new : NewRecord}
    (h : newRecord n = .ok (some new)) :
    new.resultNew = n ∧ new.pathNew = strip (firstField ':' n) ∧
      funcName n = .ok new.funcNameNew ∧ resultId n = some new.resultIdNew := by
  unfold newRecord at h
  cases hid : resultId n with
  | none => simp [hid] at h
  | some resultIdNew =>
      simp only [hid] at h
      obtain ⟨funcNameNew, hfunc, h⟩ := bind_eq_ok.mp h
      obtain rfl : _ = new := by simpa using h
      exact ⟨rfl, rfl, hfunc, rfl⟩

theorem newRecord_eq_none {n : Text} :
    newRecord n = .ok none ↔ resultId n = none := by
  unfold newRecord
  cases resultId n with
  | none => simp
  | some resultIdNew =>
      simp only [reduceCtorEq, iff_false]
      intro h
      obtain ⟨funcNameNew, -, h⟩ := bind_eq_ok.mp h
      simp at h

theorem transferRecord_of_newRecord {resultListAnalyzed : List Text} {n : Text}
    {new : NewRecord} (hnew : newRecord n = .ok (some new)) :
    transferRecord resultListAnalyzed n =
      (findAnalyzed new resultListAnalyzed >>= fun found =>
        match found with
        | some record => .ok (some ⟨record, true⟩)
        | none => .ok (some ⟨n, false⟩)) := by
  have hnil : n ≠ [] := by
    rintro rfl
    simp [newRecord] at hnew
  rw [transferRecord, if_neg hnil, hnew]
  rfl

theorem transferRecord_ok {resultListAnalyzed : List Text} {n : Text}
    {outcome : Option Transferred}
    (h : transferRecord resultListAnalyzed n = .ok outcome) :
    (outcome = none ∧ (n = [] ∨ resultId n = none)) ∨
    ∃ new, newRecord n = .ok (some new) ∧
      ((∃ a v record, Decides new resultListAnalyzed a v ∧
          written new (strip a) v = some record ∧
          outcome = some ⟨record, true⟩) ∨
        ((∀ a ∈ resultListAnalyzed, judge new (strip a) = .ok .next) ∧
          outcome = some ⟨n, false⟩)) := by
  by_cases hnil : n = []
  · simp [transferRecord, hnil] at h
    exact .inl ⟨h.symm, .inl hnil⟩
  cases hnew : newRecord n with
  | error e => simp [transferRecord, hnil, hnew] at h
  | ok marker =>
      cases marker with
      | none =>
          simp [transferRecord, hnil, hnew] at h
          exact .inl ⟨h.symm, .inr (newRecord_eq_none.mp hnew)⟩
      | some new =>
          rw [transferRecord_of_newRecord hnew] at h
          obtain ⟨found, hfound, h⟩ := bind_eq_ok.mp h
          refine .inr ⟨new, rfl, ?_⟩
          cases found with
          | none =>
              refine .inr ⟨(findAnalyzed_eq_none new _).mp hfound, ?_⟩
              simpa using h.symm
          | some record =>
              obtain ⟨a, v, hdecides, hwritten⟩ :=
                (findAnalyzed_eq_some new record _).mp hfound
              exact .inl ⟨a, v, record, hdecides, hwritten, by simpa using h.symm⟩

theorem transferRecord_marked {resultListAnalyzed : List Text} {n : Text}
    {outcome : Option Transferred}
    (h : transferRecord resultListAnalyzed n = .ok outcome) :
    outcome.isSome ↔ n ≠ [] ∧ (resultId n).isSome := by
  rcases transferRecord_ok h with ⟨rfl, rfl | hid⟩ | ⟨new, hnew, hcases⟩
  · simp
  · simp [hid]
  · obtain ⟨-, -, -, hid⟩ := newRecord_ok hnew
    have hnil : n ≠ [] := by
      rintro rfl
      simp at hid
    rcases hcases with ⟨a, v, record, -, -, rfl⟩ | ⟨-, rfl⟩ <;> simp [hnil, hid]

theorem transferRecord_carries {resultListAnalyzed : List Text} {n : Text}
    {transferred : Transferred}
    (hlist : ∀ a ∈ resultListAnalyzed, ';' ∉ a) (hn : ';' ∉ n)
    (h : transferRecord resultListAnalyzed n = .ok (some transferred)) :
    Carries n transferred.record := by
  rcases transferRecord_ok h with ⟨hnone, -⟩ | ⟨new, hnew, hcases⟩
  · simp at hnone
  · obtain ⟨hresult, -⟩ := newRecord_ok hnew
    rcases hcases with ⟨a, v, record, hdecides, hwritten, hout⟩ | ⟨-, hout⟩
    · obtain rfl : transferred = ⟨record, true⟩ := by simpa using hout
      have hmem := hdecides.mem
      obtain ⟨before, after, -, -, hjudge, -⟩ := hdecides
      have ha : ';' ∉ strip a := fun hc => hlist a hmem (mem_of_mem_stripBy hc)
      exact hresult ▸ written_carries hjudge hwritten ha (hresult ▸ hn)
    · obtain rfl : transferred = ⟨n, false⟩ := by simpa using hout
      exact ⟨List.infix_rfl, hn⟩

def Writes (resultListAnalyzed : List Text) (n record : Text) : Prop :=
  ∃ found, transferRecord resultListAnalyzed n = .ok (some ⟨record, found⟩)

theorem transferAll_finished {t : Bool} {resultListAnalyzed : List Text}
    (resultListNew : List Text) {start final : Outputs}
    (h : transferAll t resultListAnalyzed resultListNew start = (final, none)) :
    ∃ records : List Text,
      final.analyzed = start.analyzed ++ records.flatMap (· ++ terminator) ∧
      List.Forall₂ (Writes resultListAnalyzed)
        ((resultListNew.map strip).filter fun n =>
          n ≠ [] ∧ (resultId n).isSome) records := by
  induction resultListNew generalizing start with
  | nil =>
      obtain ⟨rfl, -⟩ := Prod.mk.inj h
      exact ⟨[], by simp, by simp⟩
  | cons n rest ih =>
      simp only [transferAll] at h
      cases hrecord : transferRecord resultListAnalyzed (strip n) with
      | error e => simp [hrecord] at h
      | ok outcome =>
          have hmarked := transferRecord_marked hrecord
          rw [hrecord] at h
          cases outcome with
          | none =>
              obtain ⟨records, hfinal, hforall⟩ := ih h
              refine ⟨records, hfinal, ?_⟩
              rw [List.map_cons, List.filter_cons_of_neg]
              · exact hforall
              · simpa using hmarked
          | some transferred =>
              obtain ⟨records, hfinal, hforall⟩ := ih h
              refine ⟨transferred.record :: records, ?_, ?_⟩
              · simp [hfinal, Outputs.write]
              · rw [List.map_cons, List.filter_cons_of_pos (by simpa using hmarked)]
                exact .cons ⟨transferred.found, hrecord⟩ hforall

theorem transferAll_of_writes (t : Bool) (resultListAnalyzed : List Text)
    (resultListNew : List Text) (start : Outputs) (records : List Text)
    (h : List.Forall₂ (Writes resultListAnalyzed)
      ((resultListNew.map strip).filter (· ≠ [])) records) :
    ∃ final, transferAll t resultListAnalyzed resultListNew start = (final, none) ∧
      final.analyzed = start.analyzed ++ records.flatMap (· ++ terminator) := by
  induction resultListNew generalizing start records with
  | nil =>
      obtain rfl : records = [] := by simpa using h
      exact ⟨start, rfl, by simp⟩
  | cons n rest ih =>
      by_cases hnil : strip n = []
      · rw [List.map_cons, List.filter_cons_of_neg (by simp [hnil])] at h
        simpa [transferAll, transferRecord, hnil] using ih start records h
      · rw [List.map_cons, List.filter_cons_of_pos (by simp [hnil])] at h
        cases h with
        | cons hwrites hrest =>
            obtain ⟨found, hrecord⟩ := hwrites
            obtain ⟨final, hfinal, hanalyzed⟩ := ih _ _ hrest
            refine ⟨final, by simpa [transferAll, hrecord] using hfinal, ?_⟩
            simp [hanalyzed, Outputs.write]

theorem main_eq {args : Args} {files : Files} {dataAnalyzed dataNew : Text}
    (hanalyzed : files args.inputAnalyzed = some dataAnalyzed)
    (hnew : files args.inputNew = some dataNew)
    (hforce : (files args.outputFile).isSome → args.force = true)
    {outputs : Outputs} {error : Option PyError}
    (h : transferAll args.t (dataAnalyzed.splitOn ';') (dataNew.splitOn ';') {} =
      (outputs, error)) :
    (main args files).1 args.outputFile = some outputs.analyzed ∧
      (main args files).2 = error.elim .finished .raised := by
  have hsuffix : ∀ suffix : Text, suffix ≠ [] →
      args.outputFile ≠ args.outputFile ++ suffix := by
    intro suffix hsuffix heq
    exact hsuffix (List.append_right_eq_self.mp heq.symm)
  have hguard : ¬ ((files args.outputFile).isSome ∧ args.force = false) := by
    rintro ⟨hexists, hforced⟩
    simp [hforce hexists] at hforced
  simp only [main, hnew, hanalyzed, if_neg hguard, h]
  cases error with
  | some e => exact ⟨Function.update_self .., rfl⟩
  | none =>
      simp only
      split
      · exact ⟨Function.update_self .., rfl⟩
      · refine ⟨?_, rfl⟩
        dsimp only
        rw [Function.update_of_ne (hsuffix ".tmp.old".toList (by decide)),
          Function.update_of_ne (hsuffix ".tmp.new".toList (by decide)),
          Function.update_self]

theorem force_of_finished {args : Args} {files : Files} {dataAnalyzed dataNew : Text}
    (hanalyzed : files args.inputAnalyzed = some dataAnalyzed)
    (hnew : files args.inputNew = some dataNew)
    (h : (main args files).2 = .finished) :
    (files args.outputFile).isSome → args.force = true := by
  intro hexists
  by_contra hforce
  have hguard : (files args.outputFile).isSome ∧ args.force = false :=
    ⟨hexists, by simpa using hforce⟩
  simp only [main, hnew, hanalyzed, if_pos hguard, reduceCtorEq] at h

theorem main_writes {args : Args} {files : Files} {dataAnalyzed dataNew : Text}
    (hanalyzed : files args.inputAnalyzed = some dataAnalyzed)
    (hnew : files args.inputNew = some dataNew)
    (h : (main args files).2 = .finished) :
    ∃ records : List Text,
      (main args files).1 args.outputFile =
        some (records.flatMap (· ++ terminator)) ∧
      List.Forall₂ (Writes (dataAnalyzed.splitOn ';')) (markedRecords dataNew)
        records := by
  have hforce := force_of_finished hanalyzed hnew h
  cases hall : transferAll args.t (dataAnalyzed.splitOn ';')
      (dataNew.splitOn ';') {} with
  | mk outputs error =>
      obtain ⟨houtput, hexit⟩ := main_eq hanalyzed hnew hforce hall
      cases error with
      | some e => simp [hexit] at h
      | none =>
          obtain ⟨records, hfinal, hwrites⟩ := transferAll_finished _ hall
          exact ⟨records, by simpa [hfinal] using houtput, hwrites⟩

theorem not_mem_of_mem_markedRecords {data n : Text} (h : n ∈ markedRecords data) :
    ';' ∉ n := by
  obtain ⟨piece, hpiece, rfl⟩ := List.mem_map.mp (List.mem_of_mem_filter h)
  exact fun hc => not_mem_of_mem_splitOn ';' data piece hpiece (mem_of_mem_stripBy hc)

theorem Writes.carries {dataAnalyzed n record : Text}
    (h : Writes (dataAnalyzed.splitOn ';') n record) (hn : ';' ∉ n) :
    Carries n record := by
  obtain ⟨found, hrecord⟩ := h
  exact transferRecord_carries
    (fun a ha => not_mem_of_mem_splitOn ';' dataAnalyzed a ha) hn hrecord

/--
When the script finishes, the output holds exactly one terminated record for
each marked record of the new report, in the same order.
-/
theorem main_writes_marked (args : Args) (files files' : Files)
    (dataAnalyzed dataNew : Text)
    (hanalyzed : files args.inputAnalyzed = some dataAnalyzed)
    (hnew : files args.inputNew = some dataNew)
    (h : main args files = (files', .finished)) :
    ∃ records : List Text,
      files' args.outputFile = some (records.flatMap (· ++ terminator)) ∧
      List.Forall₂ Carries (markedRecords dataNew) records := by
  obtain ⟨records, houtput, hwrites⟩ := main_writes hanalyzed hnew (by rw [h])
  refine ⟨records, by rw [← houtput, h], ?_⟩
  refine ((List.forall₂_and_left _ _).mpr
    ⟨fun n hn => not_mem_of_mem_markedRecords hn, hwrites⟩).imp ?_
  exact fun n record hrecord => hrecord.2.carries hrecord.1

/-! ## A report with an unmarked record -/

def sampleAnalyzed : Text :=
  "excluded\tmm/util.c:152 kmemdup_nul() warn: {15}\n\t'check_host_input' 'len'\n\t[bounded];\n".toList

def sampleNew : Text :=
  "mm/util.c:154 kmemdup_nul() warn: {15}\n\t'check_host_input' 'len';\nmm/util.c:155 kmemdup_nul() error: 'check_host_input' 'buf[len]';\n".toList

def sampleArgs : Args := ⟨"old".toList, "new".toList, "out".toList, false, false⟩

def sampleFiles : Files := fun name =>
  if name = "old".toList then some sampleAnalyzed
  else if name = "new".toList then some sampleNew
  else none

theorem main_sample :
    (main sampleArgs sampleFiles).2 = .finished ∧
    (main sampleArgs sampleFiles).1 sampleArgs.outputFile =
      some "excluded\tmm/util.c:154 kmemdup_nul() warn: {15}\n\t'check_host_input' 'len'\n\t[bounded];\n".toList := by
  decide +kernel

theorem main_writes_marked_sample :
    ∃ records : List Text,
      (main sampleArgs sampleFiles).1 sampleArgs.outputFile =
        some (records.flatMap (· ++ terminator)) ∧
      List.Forall₂ Carries (markedRecords sampleNew) records :=
  main_writes_marked sampleArgs sampleFiles (main sampleArgs sampleFiles).1
    sampleAnalyzed sampleNew (by simp [sampleFiles, sampleArgs])
    (by simp [sampleFiles, sampleArgs]) (by rw [← main_sample.1])

theorem unmarked_record_dropped :
    (main sampleArgs sampleFiles).2 = .finished ∧
    (((sampleNew.splitOn ';').map strip).filter (· ≠ [])).length = 2 ∧
    (main sampleArgs sampleFiles).1 sampleArgs.outputFile =
      some "excluded\tmm/util.c:154 kmemdup_nul() warn: {15}\n\t'check_host_input' 'len'\n\t[bounded];\n".toList :=
  ⟨main_sample.1, by decide +kernel, main_sample.2⟩

end TdvfFuzz.Audit
