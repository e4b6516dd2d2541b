import TdvfFuzz.CrashSummary.Script

/-!
# The headings of the report

A heading is printed by `echo -e`, which reads the message and the names of the
logs along with the line ends that the script writes.
-/

namespace TdvfFuzz.CrashSummary

open TdvfFuzz.Foundation

/-- One heading with the logs under it, joined by commas. -/
structure ListedIssue where
  cls : BugClass
  tag : Text
  message : Text
  logs : Text
  deriving DecidableEq, Repr

namespace ListedIssue

def names (block : ListedIssue) : List Text := block.logs.splitOn ','

def printed (block : ListedIssue) : Text := issueText block.tag block.message block.logs

def literal (block : ListedIssue) : Text :=
  '[' :: block.tag ++ "] ".toList ++ (block.message ++ '\n' :: '\t' ::
    (",\n\t".toList.intercalate block.names ++ ['\n', '\n']))

end ListedIssue

def listed (s : Issues) : List ListedIssue :=
  BugClass.classesOrder.flatMap fun cls =>
    (shellWords (s.class2tag.getD cls [])).map fun tag =>
      ⟨cls, tag, s.tag2msg.getD tag [], s.tag2log.getD tag []⟩

theorem renderToText_eq (targetInfo : Text) (scanLogsNum : ℕ) (s : Issues) :
    renderToText targetInfo scanLogsNum s =
      reportHead targetInfo scanLogsNum s ++ (listed s).flatMap ListedIssue.printed := by
  simp only [renderToText, listed, List.flatMap_assoc, List.flatMap_map]
  rfl

theorem tags_listed (s : Issues) (cls : BugClass) :
    ((listed s).filter fun block => block.cls = cls).map ListedIssue.tag =
      shellWords (s.class2tag.getD cls []) := by
  cases cls <;>
    simp [listed, BugClass.classesOrder, List.filter_map, Function.comp_def]

def classSummary (blocks : List ListedIssue) (cls : BugClass) : Text :=
  let tags := (blocks.filter fun block => block.cls = cls).map ListedIssue.tag
  if tags = [] then []
  else '\t' :: (cls.name ++ ": ".toList ++ [' '].intercalate tags ++ ['\n'])

/-! ## Names of logs -/

/-- A word of the shell without a comma. -/
def WellNamed (log : Text) : Prop :=
  log ≠ [] ∧ ∀ c ∈ log, c ≠ ',' ∧ isBlank c = false ∧ c ≠ '\x00'

instance (log : Text) : Decidable (WellNamed log) :=
  inferInstanceAs (Decidable (log ≠ [] ∧ ∀ c ∈ log, c ≠ ',' ∧ isBlank c = false ∧ c ≠ '\x00'))

section

variable {names : List Text}

theorem splitOn_names (hne : names ≠ []) (h : ∀ name ∈ names, WellNamed name) :
    ([','].intercalate names).splitOn ',' = names :=
  List.splitOn_intercalate ',' (fun name hname hcomma => ((h name hname).2 _ hcomma).1 rfl) hne

theorem logLines_names (hne : names ≠ []) (h : ∀ name ∈ names, WellNamed name)
    (hoption : isEchoOption ([','].intercalate names) = false) :
    logLines ([','].intercalate names) = ",\n\t".toList.intercalate names := by
  have hreplace : ([','].intercalate names).flatMap
      (fun c => if c = ',' then ",\n\t".toList else [c]) = ",\n\t".toList.intercalate names :=
    flatMap_intercalate fun name hname c hc => if_neg ((h name hname).2 c hc).1
  have hnul : '\x00' ∉ ",\n\t".toList.intercalate names := by
    intro hmem
    rcases mem_of_mem_intercalate hmem with hsep | ⟨name, hname, hc⟩
    · exact absurd hsep (by decide)
    · exact ((h name hname).2 _ hc).2.2 rfl
  have hlast : ∀ c ∈ (",\n\t".toList.intercalate names).getLast?, c ≠ '\n' := by
    obtain ⟨first, last, rfl⟩ := names.eq_nil_or_concat'.resolve_left hne
    obtain ⟨hlastne, hchars⟩ := h last (by simp)
    have hend : (",\n\t".toList.intercalate (first ++ [last])).getLast? = last.getLast? := by
      cases first with
      | nil => simp
      | cons name first =>
          rw [intercalate_concat (by simp), ← List.append_assoc,
            List.getLast?_append_of_ne_nil _ hlastne]
    rintro c hc rfl
    rw [hend] at hc
    exact absurd (hchars _ (List.mem_of_getLast? hc)).2.1 (by decide)
  rw [logLines, echo, hoption, if_neg Bool.false_ne_true, List.flatMap_append, hreplace]
  exact commandSubst_newline hnul hlast

theorem logLines_option {logs : Text} (h : isEchoOption logs = true) : logLines logs = [] := by
  rw [logLines, echo, if_pos h]
  split_ifs <;> rfl

end

/-! ## What `echo -e` makes of a heading -/

theorem echoAt_heading_iff (msg logs : Text) :
    echoAt 0 (msg ++ '\\' :: 'n' :: '\\' :: 't' :: (logs ++ ['\\', 'n'])) =
        msg ++ '\n' :: '\t' :: (logs ++ ['\n', '\n']) ↔
      plain msg = true ∧ plain logs = true := by
  have hnewline : ∀ r, escapeAt ('n' :: r) = some (.char '\n' 1) := fun _ => rfl
  have htab : ∀ r, escapeAt ('t' :: r) = some (.char '\t' 1) := fun _ => rfl
  have hend : echoAt 0 ['\\', 'n'] = ['\n', '\n'] := rfl
  have htail : echoAt 0 ('\\' :: 't' :: (logs ++ ['\\', 'n'])) =
      '\t' :: echoAt 0 (logs ++ ['\\', 'n']) := echoAt_escape (htab _)
  have hlength : (echoAt 0 (logs ++ ['\\', 'n'])).length ≤ logs.length + 2 :=
    length_echoAt_le (by decide) (hnewline []) logs 0 (Nat.zero_le _)
  constructor
  · intro h
    rcases echoAt_cases (by decide) (hnewline ('\\' :: 't' :: (logs ++ ['\\', 'n']))) msg with
      hmsg | ⟨msg₀, rfl, hmsg⟩ | hmsg
    · refine ⟨hmsg, ?_⟩
      rw [echoAt_plain hmsg, echoAt_escape (hnewline _), htail] at h
      have hlogs : echoAt 0 (logs ++ ['\\', 'n']) = logs ++ ['\n', '\n'] := by simpa using h
      rcases echoAt_cases (by decide) (hnewline []) logs with hplain | ⟨logs₀, rfl, heq⟩ | hlt
      · exact hplain
      · rw [heq] at hlogs
        simp [echoAt] at hlogs
      · rw [hlogs] at hlt
        simp [echoAt] at hlt
    · rw [hmsg, htail] at h
      simp at h
    · rw [h, htail] at hmsg
      simp at hmsg
      omega
  · rintro ⟨hmsg, hlogs⟩
    rw [echoAt_plain hmsg, echoAt_escape (hnewline _), htail, echoAt_plain hlogs, hend]

theorem echoAt_of_not_mem {s : Text} (h : '\\' ∉ s) (r : Text) :
    echoAt 0 (s ++ r) = s ++ echoAt 0 r := by
  induction s with
  | nil => rfl
  | cons c s ih =>
      simp only [List.mem_cons, not_or] at h
      rw [List.cons_append, echoAt, if_neg (Ne.symm h.1), ih h.2]
      rfl

/-- The script's `echo` commands print the message and the names as they are. -/
def Shown (message : Text) (names : List Text) : Prop :=
  isEchoOption ([','].intercalate names) = false ∧ plain message = true ∧
    plain (",\n\t".toList.intercalate names) = true

instance (message : Text) (names : List Text) : Decidable (Shown message names) :=
  inferInstanceAs (Decidable (_ ∧ _ ∧ _))

theorem printed_eq_literal_iff {block : ListedIssue} {names : List Text}
    (hlogs : block.logs = [','].intercalate names) (hne : names ≠ [])
    (hnames : ∀ name ∈ names, WellNamed name) (htag : '\\' ∉ block.tag) :
    block.printed = block.literal ↔ Shown block.message names := by
  have hblock : block.names = names := by
    rw [ListedIssue.names, hlogs, splitOn_names hne hnames]
  have hhead : '\\' ∉ '[' :: block.tag ++ "] ".toList := by
    simpa using htag
  have hprinted : block.printed = '[' :: block.tag ++ "] ".toList ++
      echoAt 0 (block.message ++ '\\' :: 'n' :: '\\' :: 't' ::
        (logLines block.logs ++ ['\\', 'n'])) := by
    rw [← echoAt_of_not_mem hhead, ListedIssue.printed, issueText, echoE]
    congr 1
    simp
  rw [hprinted, ListedIssue.literal, hblock, Shown, List.append_right_inj, hlogs]
  cases hoption : isEchoOption ([','].intercalate names) with
  | false =>
      rw [logLines_names hne hnames hoption, echoAt_heading_iff]
      simp
  | true =>
      have hsome : ",\n\t".toList.intercalate names ≠ [] := fun hnil =>
        hne ((intercalate_eq_nil_iff _ fun name hname => (hnames name hname).1).mp hnil)
      have hpos := List.length_pos_iff.mpr hsome
      -- the option takes the names away, and nothing else makes the text longer
      have hlength := length_echoAt_le (r := '\\' :: 't' :: ['\\', 'n']) (e := 'n') (d := '\n')
        (by decide) rfl block.message 0 (Nat.zero_le _)
      have hend : (echoAt 0 ('\\' :: 't' :: ['\\', 'n'])).length = 3 := rfl
      rw [logLines_option hoption]
      simp only [Bool.true_eq_false, false_and, iff_false]
      intro heq
      rw [List.nil_append] at heq
      rw [heq] at hlength
      simp only [List.length_append, List.length_cons, List.length_nil] at hlength
      omega

end TdvfFuzz.CrashSummary
