import TdvfFuzz.CrashSummary.Script
import TdvfFuzz.Foundation.Grouping

/-!
# The arrays after a scan

The arrays group the logs by the tag of their issue.  They hold the members
and keys of that grouping as texts, joined by commas and by blanks.
-/

namespace TdvfFuzz.CrashSummary

open TdvfFuzz.Foundation

/-! ## The issue of a log -/

structure Issue where
  message : Text
  cls : BugClass
  deriving DecidableEq, Repr

def rawIssue (tools : Tools) (log : Text) : Text × BugClass :=
  if kasanBug tools log ≠ [] then (kasanBug tools log, .kasan)
  else if kasanInline tools log ≠ [] then (kasanInline tools log, .kasan)
  else if panicHandler tools log ≠ [] then (panicHandler tools log, .crash)
  else if uncheckedMsr tools log ≠ [] then (uncheckedMsr tools log, .warns)
  else if warningOrBug tools log ≠ [] then (warningOrBug tools log, .warns)
  else if beforeRip tools log ≠ [] then (beforeRip tools log, .warns)
  else if tools.timedOut log then ("Unclassified HANGS".toList, .hangs)
  else ("Unclassified CRASH".toList, .warns)

def derived (tools : Tools) (log : Text) : Issue :=
  ⟨normalise tools (rawIssue tools log).1, (rawIssue tools log).2⟩

def tagOf (tools : Tools) (log : Text) : Text :=
  issueTag tools (derived tools log).message (derived tools log).cls

section

variable {tools : Tools} {s : Issues} {log : Text}

theorem registerIssue_of_ne {msg : Text} (hmsg : msg ≠ []) (cls : BugClass) :
    registerIssue tools s msg log cls =
      some { s.store (issueTag tools (normalise tools msg) cls) (normalise tools msg) log cls with
        log2note := s.log2note.set log (errorNote tools log) } := by
  rw [registerIssue, if_neg hmsg]
  simp only [Issues.store]
  split <;> rfl

theorem scanLog_eq :
    scanLog tools s log =
      { s.store (tagOf tools log) (derived tools log).message log (derived tools log).cls with
        log2note := s.log2note.set log (errorNote tools log) } := by
  have horElse : ∀ {msg : Text} {cls : BugClass} {rest : Option Issues},
      (registerIssue tools s msg log cls <|> rest) =
        if msg ≠ [] then registerIssue tools s msg log cls else rest := by
    intro msg cls rest
    split_ifs with hmsg
    · rw [registerIssue_of_ne hmsg]
      rfl
    · rw [not_not.mp hmsg]
      rfl
  have hregister : scanLog tools s log =
      (registerIssue tools s (rawIssue tools log).1 log (rawIssue tools log).2).getD s := by
    simp only [scanLog, horElse, rawIssue]
    split_ifs <;> rfl
  have hraw : (rawIssue tools log).1 ≠ [] := by
    unfold rawIssue
    split_ifs <;> first | assumption | decide
  rw [hregister, registerIssue_of_ne hraw]
  rfl

end

/-! ## Tags -/

section

variable {tools : Tools}

theorem isDigit_of_mem_decimal {n : ℕ} {c : Char} (h : c ∈ decimal n) : c.isDigit = true :=
  Nat.isDigit_of_mem_toDigits (by decide) (by decide) h

theorem mem_cksumLine {sum : ℕ × ℕ} {c : Char} (h : c ∈ cksumLine sum) :
    c.isDigit = true ∨ c = ' ' ∨ c = '-' := by
  rcases List.mem_append.mp h with h | h
  · rcases List.mem_append.mp h with h | h
    · exact .inl (isDigit_of_mem_decimal h)
    · rcases List.mem_cons.mp h with h | h
      · exact .inr (.inl h)
      · exact .inl (isDigit_of_mem_decimal h)
  · exact .inr (by simpa using h)

theorem issueTag_eq (msg : Text) (cls : BugClass) :
    issueTag tools msg cls =
      (cksumLine (tools.cksum (echo (msg ++ ',' :: cls.name)))).take tagLen := by
  refine commandSubst_newline_of_forall fun c hc => ?_
  have hchar := mem_cksumLine (List.mem_of_mem_take hc)
  constructor <;> rintro rfl <;> simp at hchar

theorem backslash_not_mem_issueTag (msg : Text) (cls : BugClass) :
    '\\' ∉ issueTag tools msg cls := by
  rw [issueTag_eq]
  intro hc
  have hchar := mem_cksumLine (List.mem_of_mem_take hc)
  simp at hchar

theorem issueTag_ne_nil (msg : Text) (cls : BugClass) : issueTag tools msg cls ≠ [] := by
  rw [issueTag_eq, ← List.length_pos_iff, List.length_take]
  have hpos : 0 < (decimal (tools.cksum (echo (msg ++ ',' :: cls.name))).1).length :=
    Nat.length_toDigits_pos
  simp only [cksumLine, List.length_append, tagLen]
  omega

theorem issueTag_word_iff (msg : Text) (cls : BugClass) :
    (∀ c ∈ issueTag tools msg cls, isBlank c = false) ↔
      10000 ≤ (tools.cksum (echo (msg ++ ',' :: cls.name))).1 := by
  rw [issueTag_eq]
  generalize tools.cksum (echo (msg ++ ',' :: cls.name)) = sum
  have hlength : (decimal sum.1).length ≤ 4 ↔ sum.1 < 10000 :=
    Nat.length_toDigits_le_iff (by decide) (by decide)
  have hline : cksumLine sum = decimal sum.1 ++ ' ' :: (decimal sum.2 ++ " -".toList) := by
    rw [cksumLine, List.append_assoc, List.cons_append]
  constructor
  · intro hword
    by_contra hsmall
    obtain ⟨width, hwidth⟩ : ∃ width, tagLen = (decimal sum.1).length + (width + 1) :=
      ⟨4 - (decimal sum.1).length, by simp only [tagLen]; omega⟩
    have hblank : ' ' ∈ (cksumLine sum).take tagLen := by
      rw [hline, hwidth, List.take_length_add_append, List.take_succ_cons]
      simp
    exact absurd (hword ' ' hblank) (by decide)
  · intro hlarge c hc
    rw [hline, List.take_append_of_le_length (by simp only [tagLen]; omega)] at hc
    have hdigit := isDigit_of_mem_decimal (List.mem_of_mem_take hc)
    rw [isBlank, decide_eq_false_iff_not]
    rintro (rfl | rfl | rfl) <;> contradiction

end

/-! ## The arrays as a grouping -/

def grouping (tools : Tools) : Grouping Text Text Text BugClass where
  key := tagOf tools
  label := fun log => (derived tools log).message
  cls := fun log => (derived tools log).cls
  blank := []

structure Represents (s : Issues) (t : Groups Text Text Text BugClass) : Prop where
  label : ∀ tag, s.tag2msg.getD tag [] = t.label tag
  members : ∀ tag, s.tag2log.getD tag [] = [','].intercalate (t.members tag)
  keys : ∀ cls, s.class2tag.getD cls [] = [' '].intercalate (t.keys cls)

section

variable {tools : Tools} {seen : List Text} {s : Issues} {t : Groups Text Text Text BugClass}

theorem Represents.scanLog (h : Represents s t) (hsound : (grouping tools).Sound seen t)
    (log : Text) : Represents (scanLog tools s log) ((grouping tools).enter t log) := by
  have hkeys : ∀ cls, ∀ tag ∈ t.keys cls, tag ≠ [] := by
    intro cls tag htag
    obtain ⟨other, -, rfl⟩ := hsound.keys_seen cls tag htag
    exact issueTag_ne_nil _ _
  have hlabel : s.tag2msg.getD (tagOf tools log) [] = t.label ((grouping tools).key log) :=
    h.label _
  rw [scanLog_eq]
  by_cases hblank : t.label ((grouping tools).key log) = (grouping tools).blank
  · have hunset : s.tag2msg.getD (tagOf tools log) [] = [] := hlabel.trans hblank
    rw [Issues.store, if_pos hunset, Grouping.enter, if_pos hblank]
    constructor
    case label =>
      intro tag
      by_cases htag : tag = tagOf tools log
      · simp [htag, grouping]
      · simpa [htag, grouping] using h.label tag
    case members =>
      intro tag
      by_cases htag : tag = tagOf tools log
      · simp [htag, grouping]
      · simpa [htag, grouping] using h.members tag
    case keys =>
      intro cls
      by_cases hcls : cls = (derived tools log).cls
      · subst hcls
        have hempty := intercalate_eq_nil_iff [' '] (hkeys (derived tools log).cls)
        by_cases hnil : t.keys (derived tools log).cls = []
        · simp [h.keys, hnil, grouping]
        · simp [h.keys, hempty, hnil, intercalate_concat hnil, grouping]
      · simpa [hcls, grouping] using h.keys cls
  · rw [Issues.store, if_neg (by rw [hlabel]; exact hblank), Grouping.enter, if_neg hblank]
    refine ⟨h.label, ?_, h.keys⟩
    intro tag
    by_cases htag : tag = tagOf tools log
    · have hsome : t.members (tagOf tools log) ≠ [] := hsound.members_ne _ hblank
      simp [htag, h.members, intercalate_concat hsome, grouping]
    · simpa [htag, grouping] using h.members tag

theorem scanLogs_represents (logs : List Text) :
    Represents (scanLogs tools logs) ((grouping tools).collect logs) := by
  induction logs using List.reverseRecOn with
  | nil => constructor <;> simp [scanLogs, Issues.empty, Grouping.start, grouping]
  | append_singleton logs log ih =>
      have hlast : scanLogs tools (logs ++ [log]) =
          CrashSummary.scanLog tools (scanLogs tools logs) log := by simp [scanLogs]
      rw [hlast, Grouping.collect_concat]
      exact ih.scanLog (Grouping.collect_sound logs) log

end

end TdvfFuzz.CrashSummary
