import TdvfFuzz.Audit.Review

/-!
# Review comments under repeated transfers

The comment of a record is read anew in every transfer, as the first bracketed
text of one line.  What one transfer leaves of a comment, all later ones keep.
-/

namespace TdvfFuzz.Audit

open TdvfFuzz.Foundation

/-! ## Reviewed records -/

/-- A finding behind a status, with a text behind it. -/
def carried (status : Text) (f : Finding) (tail : Option Text) : Text :=
  status ++ '\t' :: (f.text ++ tail.elim [] (newlineTab ++ ·))

def bracketed (comment : Text) : Text := '[' :: (comment ++ [']'])

/-- A finding with a status and a bracketed comment of any form. -/
structure Commented extends Finding where
  status : Text
  comment : Text
  status_ne_nil : status ≠ []
  statusLine : '\t' ∉ status ∧ '\n' ∉ status
  statusEnds : strip status = status

def Commented.text (r : Commented) : Text :=
  carried r.status r.toFinding (some (bracketed r.comment))

theorem carried_inj {status : Text} {f : Finding} {tail tail' : Option Text} :
    carried status f tail = carried status f tail' ↔ tail = tail' := by
  rw [carried, carried, List.append_cancel_left_eq, List.cons.injEq, List.append_cancel_left_eq]
  cases tail <;> cases tail' <;> simp [newlineTab]

/-! ## What is read of a comment -/

/-- A text in brackets with neither a bracket that closes it early nor a line break. -/
def Clean (comment : Text) : Prop := ∀ c ∈ comment, c ≠ '\n' ∧ c ≠ ']'

/-- The text behind the message as a transfer reads it: one bracketed text of its first line. -/
def reread (tail : Option Text) : Option Text :=
  tail.bind fun x =>
    (commentPattern.search ((splitText newlineTab x).headD [])).map Match.consumed

theorem commentPattern_eq : commentPattern =
    .seq (.cls (· == '[')) (Regex.upTo (· != '\n') (· == ']')) := rfl

theorem bracketed_injective : Function.Injective bracketed := fun _ _ h =>
  List.append_cancel_right (List.cons.inj h).2

theorem Clean.newline_not_mem {comment : Text} (h : Clean comment) :
    '\n' ∉ bracketed comment := by
  simpa [bracketed] using fun hmem => (h '\n' hmem).1 rfl

theorem search_bracketed {comment : Text} (h : Clean comment) :
    commentPattern.search (bracketed comment) = some ⟨bracketed comment, [], []⟩ := by
  have hfirst : commentPattern.first none (bracketed comment) =
      some ⟨bracketed comment, [], []⟩ := by
    have hinner : (Regex.upTo (· != '\n') (· == ']')).first (some '[') (comment ++ [']']) =
        some ⟨comment ++ [']'], [], []⟩ :=
      Regex.first_upTo _ (by simpa [Clean] using h) (by simp)
    rw [commentPattern_eq, bracketed, Regex.first_cls_seq, hinner]
    rfl
  exact Regex.search_of_first (u := []) (List.cons_ne_nil _ _) (by simp) hfirst

theorem exists_of_search {x : Text} {m : Match} (h : commentPattern.search x = some m) :
    ∃ comment, m.consumed = bracketed comment ∧ Clean comment := by
  obtain ⟨u, v, -, hfirst, -⟩ := Regex.exists_first_of_search h
  rw [commentPattern_eq] at hfirst
  cases v with
  | nil => simp [Regex.first, Regex.run] at hfirst
  | cons c v =>
      rw [Regex.first_cls_seq] at hfirst
      split at hfirst
      case isFalse => contradiction
      case isTrue hopen =>
        obtain ⟨m', hm', rfl⟩ := Option.map_eq_some_iff.mp hfirst
        obtain ⟨comment, d, hconsumed, hclean, hclose⟩ := Regex.exists_of_first_upTo hm'
        obtain rfl : c = '[' := by simpa using hopen
        obtain rfl : d = ']' := by simpa using hclose
        exact ⟨comment, by simp [hconsumed, bracketed], by simpa [Clean] using hclean⟩

theorem reread_bracketed {comment : Text} (h : Clean comment) :
    reread (some (bracketed comment)) = some (bracketed comment) := by
  have hline : splitText newlineTab (bracketed comment) = [bracketed comment] := by
    rw [newlineTab, splitText_of_not_mem h.newline_not_mem]
  rw [reread, Option.bind_some, hline, List.headD_cons, search_bracketed h]
  rfl

theorem exists_of_reread {tail : Option Text} {x : Text} (h : reread tail = some x) :
    ∃ comment, x = bracketed comment ∧ Clean comment := by
  obtain ⟨y, -, hfound⟩ := Option.bind_eq_some_iff.mp h
  obtain ⟨m, hm, rfl⟩ := Option.map_eq_some_iff.mp hfound
  exact exists_of_search hm

theorem reread_eq_self_iff {comment : Text} :
    reread (some (bracketed comment)) = some (bracketed comment) ↔ Clean comment := by
  constructor
  · intro h
    obtain ⟨comment', hsame, hclean⟩ := exists_of_reread h
    exact bracketed_injective hsame ▸ hclean
  · exact reread_bracketed

theorem reread_reread (tail : Option Text) : reread (reread tail) = reread tail := by
  cases htail : reread tail with
  | none => rfl
  | some x =>
      obtain ⟨comment, rfl, hclean⟩ := exists_of_reread htail
      exact reread_bracketed hclean

/-! ## One transfer -/

section

variable {status : Text} (hline : '\t' ∉ status ∧ '\n' ∉ status) (hends : strip status = status)

include hline in
theorem fields_carried (f : Finding) (tail : Option Text) :
    splitText newlineTab (carried status f tail) =
      (status ++ '\t' :: f.header) :: f.message :: tail.elim [] (splitText newlineTab) := by
  have hfirst : '\n' ∉ status ++ '\t' :: f.header := by
    simp [hline.2, f.newline_not_mem_header]
  have htext : carried status f tail = (status ++ '\t' :: f.header) ++ newlineTab ++
      (f.message ++ tail.elim [] (newlineTab ++ ·)) := by
    simp [carried, Finding.text]
  rw [htext, newlineTab, splitText_append_sep _ hfirst]
  cases tail with
  | none => simp [splitText_of_not_mem f.oneLine]
  | some x =>
      have hsecond : splitText newlineTab (f.message ++ newlineTab ++ x) =
          f.message :: splitText newlineTab x := splitText_append_sep x f.oneLine
      simpa [newlineTab] using hsecond

include hline hends in
theorem statusAnalyzed_carried (f : Finding) (tail : Option Text) :
    statusAnalyzed (carried status f tail) = status := by
  have hfirst : '\n' ∉ status ++ '\t' :: f.header := by
    simp [hline.2, f.newline_not_mem_header]
  have htext : carried status f tail = (status ++ '\t' :: f.header) ++
      '\n' :: '\t' :: (f.message ++ tail.elim [] (newlineTab ++ ·)) := by
    simp [carried, Finding.text, newlineTab]
  have htmp : firstField '\n' (carried status f tail) = status ++ '\t' :: f.header := by
    rw [htext, firstField_append_sep _ hfirst]
  rw [statusAnalyzed, htmp, if_pos (by simp), firstField_append_sep _ hline.1, hends]

include hline in
theorem commentAnalyzed_carried (f : Finding) (tail : Option Text) :
    (commentAnalyzed (carried status f tail)).head? = reread tail := by
  rw [commentAnalyzed, fields_carried hline]
  cases tail with
  | none => rfl
  | some x =>
      obtain ⟨third, rest, hsplit⟩ :=
        List.exists_cons_of_ne_nil (splitAtText_ne_nil newlineTab 0 x)
      simp only [Option.elim_some, splitText, hsplit, List.head?_map, reread, Option.bind_some,
        List.headD_cons]
      rfl

end

theorem annotate_carried {status : Text} (hne : status ≠ []) (comments : List Text) (f : Finding) :
    annotate status comments f.text = carried status f comments.head? := by
  cases comments <;> simp [annotate, carried, hne]

/-- The inner loop for the new record `n` ends at the analyzed record with the given verdict. -/
def EndsAt (resultListAnalyzed : List Text) (n record : Text) (v : Verdict) : Prop :=
  ∃ new a, newRecord n = .ok (some new) ∧ Decides new resultListAnalyzed a v ∧ strip a = record

section

variable {resultListAnalyzed : List Text} {n record out : Text} {v : Verdict}

theorem Writes.unique {out' : Text} (h : Writes resultListAnalyzed n out)
    (h' : Writes resultListAnalyzed n out') : out = out' := by
  obtain ⟨found, hrecord⟩ := h
  obtain ⟨found', hrecord'⟩ := h'
  have hboth : out = out' ∧ found = found' := by
    simpa using hrecord.symm.trans hrecord'
  exact hboth.1

theorem EndsAt.written (h : EndsAt resultListAnalyzed n record v)
    (hwrites : Writes resultListAnalyzed n out) :
    ∃ new, new.resultNew = n ∧ Audit.written new record v = some out := by
  obtain ⟨new, a, hnew, hdecides, rfl⟩ := h
  have hne : v ≠ .next := by
    obtain ⟨-, -, -, -, -, hne⟩ := hdecides
    exact hne
  obtain ⟨own, hown⟩ := Option.ne_none_iff_exists'.mp (mt written_eq_none.mp hne)
  obtain rfl : out = own :=
    hwrites.unique ⟨true, transferRecord_of_decides hnew hdecides hown⟩
  exact ⟨new, (newRecord_ok hnew).1, hown⟩

theorem EndsAt.verbatim (h : EndsAt resultListAnalyzed n record .verbatim)
    (hwrites : Writes resultListAnalyzed n out) : out = record := by
  obtain ⟨new, -, hwritten⟩ := h.written hwrites
  exact (Option.some.inj hwritten).symm

theorem EndsAt.rebuilt (h : EndsAt resultListAnalyzed n record v) (hv : v ≠ .verbatim)
    (hwrites : Writes resultListAnalyzed n out) :
    out = annotate (statusAnalyzed record) (commentAnalyzed record) n := by
  obtain ⟨new, rfl, hwritten⟩ := h.written hwrites
  cases v with
  | next => simp [Audit.written] at hwritten
  | verbatim => exact absurd rfl hv
  | sameId => exact (Option.some.inj hwritten).symm
  | otherId => exact (Option.some.inj hwritten).symm

end

/-! ## Chains of transfers -/

/-- Some run of the script on the two reports finishes with this output. -/
def Transfers (dataAnalyzed dataNew output : Text) : Prop :=
  ∃ (args : Args) (files : Files), files args.inputAnalyzed = some dataAnalyzed ∧
    files args.inputNew = some dataNew ∧ (main args files).2 = .finished ∧
    (main args files).1 args.outputFile = some output

/--
What becomes of the reviewed record `r` of the report `data₀` in a chain of
runs, each of which reads the output of the one before it: the last report, the
record in it, the finding the record stands for, and whether a record was
rebuilt on the way.
-/
inductive Chain (data₀ : Text) (r : Commented) : Bool → Finding → Text → Text → Prop
  | start (reviewed : r.text ∈ (data₀.splitOn ';').map strip) :
      Chain data₀ r false r.toFinding data₀ r.text
  | verbatim {rebuilt : Bool} {f : Finding} {data record dataNew output n out : Text}
      (before : Chain data₀ r rebuilt f data record)
      (transfers : Transfers data dataNew output) (marked : n ∈ markedRecords dataNew)
      (endsAt : EndsAt (data.splitOn ';') n record .verbatim)
      (writes : Writes (data.splitOn ';') n out) : Chain data₀ r rebuilt f output out
  | rebuilt {rebuilt : Bool} {f f' : Finding} {data record dataNew output out : Text}
      {v : Verdict} (before : Chain data₀ r rebuilt f data record)
      (transfers : Transfers data dataNew output) (marked : f'.text ∈ markedRecords dataNew)
      (endsAt : EndsAt (data.splitOn ';') f'.text record v) (weak : v ≠ .verbatim)
      (writes : Writes (data.splitOn ';') f'.text out) : Chain data₀ r true f' output out

section

variable {data₀ data record : Text} {r : Commented} {rebuilt : Bool} {f : Finding}

theorem Chain.record_eq (h : Chain data₀ r rebuilt f data record) :
    record = carried r.status f
      (if rebuilt then reread (some (bracketed r.comment)) else some (bracketed r.comment)) := by
  induction h with
  | start => rfl
  | verbatim _ _ _ endsAt writes ih => rw [endsAt.verbatim writes, ih]
  | @rebuilt rebuilt f f' _ record _ _ out _ _ _ _ endsAt weak writes ih =>
      have hstatus : statusAnalyzed record = r.status := by
        rw [ih, statusAnalyzed_carried r.statusLine r.statusEnds]
      rw [endsAt.rebuilt weak writes, hstatus, annotate_carried r.status_ne_nil, ih,
        commentAnalyzed_carried r.statusLine]
      cases rebuilt with
      | false => rfl
      | true => simp [reread_reread]

/--
The status of a reviewed record survives every chain of transfers; its comment
survives whole exactly when no record was rebuilt on the way, or when it has
neither a line break nor a closing bracket.
-/
theorem comment_survives_iff (h : Chain data₀ r rebuilt f data record) :
    record = carried r.status f (some (bracketed r.comment)) ↔
      (rebuilt = true → Clean r.comment) := by
  rw [h.record_eq, carried_inj]
  cases rebuilt with
  | false => simp
  | true => simpa using reread_eq_self_iff

end

/-! ## A read that moved by two lines -/

def msrRead (line : Text)
    (hwords : ∀ c ∈ "msr.c".toList ++ line ++ "msr_read".toList ++ "error".toList,
      isSpace c = false) : Finding where
  path := "msr.c".toList
  line := line
  func := "msr_read".toList
  level := "error".toList
  id := "15".toList
  message := "'check_host_input' read".toList
  words := hwords
  idChars := by simp [isIdChar]
  oneLine := by decide

def reviewedRead (comment : Text) : Commented where
  toFinding := msrRead "67".toList (by decide)
  status := "excluded".toList
  comment := comment
  status_ne_nil := by decide
  statusLine := by decide
  statusEnds := by decide

def movedRead : Finding := msrRead "69".toList (by decide)

def movedRecord : NewRecord := ⟨movedRead.text, "msr.c".toList, "15".toList, "msr_read()".toList⟩

def reviewedReport (comment : Text) : Text := (reviewedRead comment).text ++ terminator

def movedFiles (comment : Text) : Files := fun name =>
  if name = sampleArgs.inputAnalyzed then some (reviewedReport comment)
  else if name = sampleArgs.inputNew then some (movedRead.text ++ terminator)
  else none

theorem chain_moved (comment out : Text)
    (hlist : (reviewedReport comment).splitOn ';' = [(reviewedRead comment).text, ['\n']])
    (htrimmed : strip (reviewedRead comment).text = (reviewedRead comment).text)
    (hjudge : judge movedRecord (reviewedRead comment).text = .ok .sameId)
    (hwritten : written movedRecord (reviewedRead comment).text .sameId = some out)
    (hfinished : (main sampleArgs (movedFiles comment)).2 = .finished)
    (houtput : (main sampleArgs (movedFiles comment)).1 sampleArgs.outputFile =
      some (out ++ terminator)) :
    Chain (reviewedReport comment) (reviewedRead comment) true movedRead (out ++ terminator)
      out := by
  have hnew : newRecord movedRead.text = .ok (some movedRecord) := by decide +kernel
  have hdecides : Decides movedRecord ((reviewedReport comment).splitOn ';')
      (reviewedRead comment).text .sameId :=
    ⟨[], [['\n']], hlist, by simp, htrimmed.symm ▸ hjudge, by decide⟩
  have hreviewed : (reviewedRead comment).text ∈
      ((reviewedReport comment).splitOn ';').map strip :=
    List.mem_map.mpr ⟨_, hdecides.mem, htrimmed⟩
  exact .rebuilt (.start hreviewed)
    ⟨sampleArgs, movedFiles comment, by simp [movedFiles], by simp [movedFiles, sampleArgs],
      hfinished, houtput⟩
    (show movedRead.text ∈ markedRecords (movedRead.text ++ terminator) by decide +kernel)
    ⟨movedRecord, _, hnew, hdecides, htrimmed⟩ (by decide)
    ⟨true, transferRecord_of_decides hnew hdecides (htrimmed.symm ▸ hwritten)⟩

def onRequest : Text := "on request".toList

def keptRecord : Text :=
  "excluded\tmsr.c:69 msr_read() error: \x7b15\x7d\n\t'check_host_input' read\n\t[on request]".toList

theorem comment_survives_iff_moved :
    keptRecord = carried "excluded".toList movedRead (some (bracketed onRequest)) ↔
      (true = true → Clean onRequest) :=
  comment_survives_iff (chain_moved onRequest keptRecord (by decide +kernel) (by decide +kernel)
    (by decide +kernel) (by decide +kernel) (by decide +kernel) (by decide +kernel))

def twoLines : Text := "read of the MSR\n\ton request".toList

def lostRecord : Text :=
  "excluded\tmsr.c:69 msr_read() error: \x7b15\x7d\n\t'check_host_input' read".toList

/-- The third newline-TAB field opens a bracket and does not close it. -/
theorem second_line_lost :
    judge movedRecord (reviewedRead twoLines).text = .ok .sameId ∧
      Chain (reviewedReport twoLines) (reviewedRead twoLines) true movedRead
        (lostRecord ++ terminator) lostRecord ∧
      lostRecord ≠ carried "excluded".toList movedRead (some (bracketed twoLines)) :=
  ⟨by decide +kernel,
    chain_moved twoLines lostRecord (by decide +kernel) (by decide +kernel) (by decide +kernel)
      (by decide +kernel) (by decide +kernel) (by decide +kernel),
    by decide +kernel⟩

end TdvfFuzz.Audit
