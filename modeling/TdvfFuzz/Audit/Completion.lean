import TdvfFuzz.Audit.Priority

/-!
# When the transfer completes

Two lookups may raise: that of the function of a record, and that of the
variable behind the name of an MSR reader, for two records of one function with
different ids.
-/

namespace TdvfFuzz.Audit

open TdvfFuzz.Foundation

/-! ## Well-shaped reports -/

/-- A finding with an optional status in front and an optional comment behind it. -/
structure ShapedRecord extends Finding where
  status : Text
  comment : Option Text
  id_ne_nil : id ≠ []

namespace ShapedRecord

def front (r : ShapedRecord) : Text := if r.status = [] then [] else r.status ++ ['\t']

def back (r : ShapedRecord) : Text :=
  r.comment.elim [] fun comment => newlineTab ++ '[' :: (comment ++ [']'])

/-- `[status TAB] finding [newline TAB '[' comment ']']` -/
def text (r : ShapedRecord) : Text := r.front ++ r.toFinding.text ++ r.back

end ShapedRecord

def ShapedFile (data : Text) : Prop :=
  ∀ piece ∈ data.splitOn ';', strip piece = [] ∨ ∃ r : ShapedRecord, strip piece = r.text

/-! ## The lookups that may raise -/

theorem two_le_length_splitOn_iff {sep : Char} {s : Text} :
    2 ≤ (s.splitOn sep).length ↔ sep ∈ s := by
  constructor
  · intro h
    by_contra hsep
    rw [List.splitOn_eq_singleton hsep] at h
    simp at h
  · intro h
    obtain ⟨u, v, rfl⟩ := List.append_of_mem h
    have hu := List.length_pos_of_ne_nil (List.splitOn_ne_nil sep u)
    have hv := List.length_pos_of_ne_nil (List.splitOn_ne_nil sep v)
    rw [List.splitOn_append_cons_self, List.length_append]
    omega

theorem exists_item_one {sep : Char} {s : Text} :
    (∃ piece, item (s.splitOn sep) 1 = .ok piece) ↔ sep ∈ s := by
  rw [← two_le_length_splitOn_iff]
  simp [List.getElem?_eq_some_iff, Nat.lt_iff_add_one_le]

/-- Behind the first colon, and before the next one, is a blank. -/
def HasFunction (s : Text) : Prop :=
  ∃ location, (s.splitOn ':')[1]? = some location ∧ ' ' ∈ location

theorem exists_funcName_iff {s : Text} : (∃ func, funcName s = .ok func) ↔ HasFunction s := by
  simp only [funcName, bind_eq_ok, HasFunction, ← exists_item_one, item_eq_ok]
  grind

/-- Behind the first occurrence of the reader's name, and before the next one, is a quote. -/
def HasVariable (reader s : Text) : Prop :=
  ∃ tail, (splitText reader s)[1]? = some tail ∧ '\'' ∈ tail

theorem exists_variableName_iff {reader s : Text} :
    (∃ v, variableName reader s = .ok v) ↔ HasVariable reader s := by
  simp only [variableName, bind_eq_ok, HasVariable, ← exists_item_one, item_eq_ok]
  grind

structure MissesFunction (new : NewRecord) (a : Text) : Prop where
  notContained : ¬ new.resultNew <:+: a
  hasId : (resultId a).isSome
  colon : ':' ∈ a
  missing : ¬ HasFunction a

/-- The ids of one function differ, and not both MSR texts name a variable. -/
structure MissesVariable (new : NewRecord) (a : Text) : Prop where
  notContained : ¬ new.resultNew <:+: a
  place : SamePlace new a
  otherId : resultId a ≠ some new.resultIdNew
  readers : RenamedReader new a
  missing : ¬ (HasVariable "paravirt_read_msr'".toList a ∧
    HasVariable "native_read_msr'".toList new.resultNew)

def Raises (new : NewRecord) (a : Text) : Prop := MissesFunction new a ∨ MissesVariable new a

theorem readable_iff {new : NewRecord} {a : Text} : Readable new a ↔ ¬ Raises new a := by
  simp only [Readable, analyzedVariable, newVariable, exists_variableName_iff,
    exists_funcName_iff, two_le_length_splitOn_iff]
  constructor
  · rintro h (⟨hcontained, hid, hcolon, hmissing⟩ | ⟨hcontained, hplace, hid, hreaders, hmissing⟩)
    · exact hmissing ((h.resolve_left hcontained).1 hid hcolon)
    · exact hmissing ((h.resolve_left hcontained).2 hplace hid hreaders)
  · intro h
    by_cases hcontained : new.resultNew <:+: a
    · exact .inl hcontained
    · refine .inr ⟨fun hid hcolon => ?_, fun hplace hid hreaders => ?_⟩ <;> by_contra hmissing
      · exact h (.inl ⟨hcontained, hid, hcolon, hmissing⟩)
      · exact h (.inr ⟨hcontained, hplace, hid, hreaders, hmissing⟩)

theorem judge_of_readable {n a : Text} {new : NewRecord}
    (hnew : newRecord n = .ok (some new)) (h : Readable new a) : ∃ v, judge new a = .ok v := by
  by_cases hunrelated : Unrelated new a
  · exact ⟨_, (judge_eq_next hnew).mpr ⟨h, hunrelated⟩⟩
  · by_cases hcontains : new.resultNew <:+: a
    · by_cases hnil : a = []
      · exact ⟨.next, by simp [judge, hnil]⟩
      · exact ⟨_, judge_of_contains hnil hcontains⟩
    · have hweak : WeakMatch new a := by
        by_contra hweak
        exact hunrelated ⟨hcontains, hweak⟩
      rcases judge_of_weakMatch hnew h hweak with hjudge | hjudge <;> exact ⟨_, hjudge⟩

/-- The loop comes to a record on which a lookup raises. -/
def Stuck (new : NewRecord) (resultListAnalyzed : List Text) : Prop :=
  ∃ before a after, resultListAnalyzed = before ++ a :: after ∧
    (∀ x ∈ before, Unrelated new (strip x) ∧ ¬ Raises new (strip x)) ∧ Raises new (strip a)

theorem stuck_cons {new : NewRecord} {a : Text} {rest : List Text} :
    Stuck new (a :: rest) ↔ Raises new (strip a) ∨
      (Unrelated new (strip a) ∧ ¬ Raises new (strip a)) ∧ Stuck new rest := by
  constructor
  · rintro ⟨before, x, after, hlist, hbefore, hx⟩
    cases before with
    | nil =>
        obtain ⟨rfl, -⟩ := List.cons.inj hlist
        exact .inl hx
    | cons first before =>
        obtain ⟨rfl, rfl⟩ := List.cons.inj hlist
        obtain ⟨hfirst, hbefore⟩ := List.forall_mem_cons.mp hbefore
        exact .inr ⟨hfirst, before, x, after, rfl, hbefore, hx⟩
  · rintro (h | ⟨ha, before, x, after, rfl, hbefore, hx⟩)
    · exact ⟨[], a, rest, rfl, by simp, h⟩
    · exact ⟨a :: before, x, after, rfl, List.forall_mem_cons.mpr ⟨ha, hbefore⟩, hx⟩

theorem findAnalyzed_ok_iff {n : Text} {new : NewRecord}
    (hnew : newRecord n = .ok (some new)) {resultListAnalyzed : List Text} :
    (∃ found, findAnalyzed new resultListAnalyzed = .ok found) ↔
      ¬ Stuck new resultListAnalyzed := by
  induction resultListAnalyzed with
  | nil => simp [findAnalyzed, Stuck]
  | cons a rest ih =>
      rw [stuck_cons, findAnalyzed]
      by_cases hraises : Raises new (strip a)
      · have hjudge : ¬ ∃ v, judge new (strip a) = .ok v := by
          rintro ⟨v, hv⟩
          exact readable_iff.mp (readable_of_judge hv) hraises
        cases hv : judge new (strip a) with
        | error e => simp [hraises]
        | ok v => exact absurd ⟨v, hv⟩ hjudge
      · have hread := readable_iff.mpr hraises
        obtain ⟨v, hv⟩ := judge_of_readable hnew hread
        simp only [hv, bind_ok, hraises, false_or, not_false_eq_true, and_true]
        by_cases hunrelated : Unrelated new (strip a)
        · have hnext := (judge_eq_next hnew).mpr ⟨hread, hunrelated⟩
          obtain rfl : v = .next := by simpa [hv] using hnext
          simp only [written, hunrelated, true_and]
          exact ih
        · have hne : v ≠ .next := by
            rintro rfl
            exact hunrelated ((judge_eq_next hnew).mp hv).2
          obtain ⟨record, hrecord⟩ : ∃ record, written new (strip a) v = some record :=
            Option.ne_none_iff_exists'.mp (mt written_eq_none.mp hne)
          simp [hrecord, hunrelated]

/-! ## The whole run -/

theorem transferAll_eq_none_iff {t : Bool} {resultListAnalyzed : List Text}
    (resultListNew : List Text) (start : Outputs) :
    (transferAll t resultListAnalyzed resultListNew start).2 = none ↔
      ∀ n ∈ resultListNew, ∃ outcome,
        transferRecord resultListAnalyzed (strip n) = .ok outcome := by
  induction resultListNew generalizing start with
  | nil => simp [transferAll]
  | cons n rest ih =>
      rw [transferAll, List.forall_mem_cons]
      cases hrecord : transferRecord resultListAnalyzed (strip n) with
      | error e => simp
      | ok outcome => cases outcome <;> simp [ih]

theorem resultId_isSome {s : Text} (h : (idPattern.search s).isSome = true) :
    (resultId s).isSome = true := by
  obtain ⟨m, hm⟩ := Option.isSome_iff_exists.mp h
  obtain ⟨pre, last, -, haccepts⟩ := Regex.mem_findall (List.mem_of_mem_head? hm)
  obtain ⟨_, _, _, _, -, hgroups, ⟨-, rfl⟩, _, _, _, _, -, rfl, ⟨_, -, rfl⟩, -⟩ := haccepts
  simp [resultId, hm, hgroups]

/-- A new record with an id has no function, or gets stuck. -/
def SomeStuck (dataAnalyzed dataNew : Text) : Prop :=
  ∃ n ∈ dataNew.splitOn ';', (resultId (strip n)).isSome ∧ (¬ HasFunction (strip n) ∨
    ∃ new, newRecord (strip n) = .ok (some new) ∧ Stuck new (dataAnalyzed.splitOn ';'))

theorem transferRecord_ok_iff {resultListAnalyzed : List Text} {n : Text} :
    (∃ outcome, transferRecord resultListAnalyzed n = .ok outcome) ↔
      ((resultId n).isSome → HasFunction n ∧
        ∀ new, newRecord n = .ok (some new) → ¬ Stuck new resultListAnalyzed) := by
  cases hid : resultId n with
  | none =>
      have hnew : newRecord n = .ok none := by simp [newRecord, hid]
      unfold transferRecord
      split <;> simp [hnew]
  | some id =>
      have hne : n ≠ [] := by
        rintro rfl
        simp at hid
      by_cases hfunction : HasFunction n
      · obtain ⟨func, hfunc⟩ := exists_funcName_iff.mpr hfunction
        obtain ⟨new, hnew⟩ : ∃ new, newRecord n = .ok (some new) :=
          ⟨⟨n, strip (firstField ':' n), id, func⟩, by simp only [newRecord, hid, hfunc, bind_ok]⟩
        have hfound : (∃ found, findAnalyzed new resultListAnalyzed = .ok found) ↔
            ¬ Stuck new resultListAnalyzed := findAnalyzed_ok_iff hnew
        rw [transferRecord_of_newRecord hnew]
        simp only [Option.isSome_some, forall_const, hfunction, true_and, hnew, Except.ok.injEq,
          Option.some.injEq, forall_eq', ← hfound]
        constructor
        · rintro ⟨outcome, houtcome⟩
          obtain ⟨found, hfind, -⟩ := bind_eq_ok.mp houtcome
          exact ⟨found, hfind⟩
        · rintro ⟨found, hfind⟩
          rw [hfind, bind_ok]
          cases found <;> exact ⟨_, rfl⟩
      · have hraises : ∀ outcome, transferRecord resultListAnalyzed n ≠ .ok outcome := by
          intro outcome houtcome
          rw [transferRecord, if_neg hne] at houtcome
          obtain ⟨new, hnew, -⟩ := bind_eq_ok.mp houtcome
          simp only [newRecord, hid] at hnew
          obtain ⟨func, hfunc, -⟩ := bind_eq_ok.mp hnew
          exact hfunction (exists_funcName_iff.mp ⟨func, hfunc⟩)
        simp [hraises, hfunction]

/-- The script runs to its end exactly if no lookup for a new record raises. -/
theorem main_finished_iff (args : Args) (files : Files) (dataAnalyzed dataNew : Text)
    (hanalyzed : files args.inputAnalyzed = some dataAnalyzed)
    (hnew : files args.inputNew = some dataNew)
    (hforce : (files args.outputFile).isSome → args.force = true) :
    (main args files).2 = .finished ↔ ¬ SomeStuck dataAnalyzed dataNew := by
  have hexit : (main args files).2 = .finished ↔
      (transferAll args.t (dataAnalyzed.splitOn ';') (dataNew.splitOn ';') {}).2 = none := by
    obtain ⟨-, hexit⟩ := main_eq hanalyzed hnew hforce rfl
    rw [hexit]
    cases (transferAll args.t (dataAnalyzed.splitOn ';') (dataNew.splitOn ';') {}).2 <;> simp
  rw [hexit, transferAll_eq_none_iff, SomeStuck]
  simp only [transferRecord_ok_iff]
  push Not
  rfl

/-! ## Two MSR reads without a variable -/

/-- A value that is read from the host, without the variable it is put into. -/
def sampleRead (path reader id status : Text)
    (hwords : ∀ c ∈ path, isSpace c = false) (hid : id ≠ [] ∧ ∀ c ∈ id, isIdChar c = true)
    (hreader : '\n' ∉ reader) : ShapedRecord where
  path := path
  line := "1".toList
  func := "f".toList
  level := "warn".toList
  id := id
  message := "'check_host_input' read from the host using function '".toList ++ reader ++
    "' returned as a value".toList
  words := by
    simp only [List.forall_mem_append]
    exact ⟨⟨⟨hwords, by decide⟩, by decide⟩, by decide⟩
  idChars := hid.2
  oneLine := by simpa using hreader
  status := status
  comment := none
  id_ne_nil := hid.1

def portRead (status : Text) : ShapedRecord :=
  sampleRead "b.c".toList "inb".toList "3".toList status (by decide) (by decide) (by decide)

def analyzedRead : ShapedRecord :=
  sampleRead "a.c".toList "paravirt_read_msr".toList "1".toList "excluded".toList (by decide)
    (by decide) (by decide)

def newRead : ShapedRecord :=
  sampleRead "a.c".toList "native_read_msr".toList "2".toList [] (by decide) (by decide)
    (by decide)

def reportOf (records : List ShapedRecord) : Text := records.flatMap (·.text ++ terminator)

def readFiles (analyzed new : List ShapedRecord) : Files := fun name =>
  if name = sampleArgs.inputAnalyzed then some (reportOf analyzed)
  else if name = sampleArgs.inputNew then some (reportOf new)
  else none

theorem main_finished_iff_read :
    (main sampleArgs
        (readFiles [portRead "safe".toList, analyzedRead] [portRead [], newRead])).2 = .finished ↔
      ¬ SomeStuck (reportOf [portRead "safe".toList, analyzedRead])
        (reportOf [portRead [], newRead]) :=
  main_finished_iff sampleArgs _ _ _ (by simp [readFiles]) (by simp [readFiles, sampleArgs])
    (by simp [readFiles, sampleArgs])

theorem shapedFile_of_records (records : List ShapedRecord) {data : Text}
    (h : ∀ piece ∈ data.splitOn ';',
      strip piece = [] ∨ strip piece ∈ records.map ShapedRecord.text) : ShapedFile data := by
  refine fun piece hpiece => (h piece hpiece).imp_right fun hmem => ?_
  obtain ⟨r, -, hr⟩ := List.mem_map.mp hmem
  exact ⟨r, hr.symm⟩

/--
No quote stands behind the quoted name of either reader, and the colon of a
status hides the function.
-/
theorem returned_reads_raise :
    (∀ records ∈ [[portRead "safe".toList, analyzedRead], [portRead [], newRead],
        [portRead "todo:x".toList], [newRead]], ShapedFile (reportOf records)) ∧
      (main sampleArgs
          (readFiles [portRead "safe".toList, analyzedRead] [portRead [], newRead])).2 =
        .raised .indexError ∧
      (main sampleArgs
          (readFiles [portRead "safe".toList, analyzedRead] [portRead [], newRead])).1
          sampleArgs.outputFile = some (reportOf [portRead "safe".toList]) ∧
      (main sampleArgs (readFiles [portRead "todo:x".toList] [newRead])).2 =
        .raised .indexError := by
  refine ⟨fun records hrecords => shapedFile_of_records records ?_, ?_⟩
  · revert records
    decide +kernel
  · decide +kernel

end TdvfFuzz.Audit
