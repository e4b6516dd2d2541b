import TdvfFuzz.Audit.Review

/-!
# Keeping a finding's identity

A record written for a finding is the finding once its annotation is taken
off, unless it was copied from a record that merely contains the finding.
-/

namespace TdvfFuzz.Audit

open TdvfFuzz.Foundation

/-! ## Taking annotations off -/

def isWordChar (c : Char) : Bool := c ≠ '\t' && c ≠ '\n'

def dropStatus (record : Text) : Text :=
  match record.dropWhile isWordChar with
  | '\t' :: rest => rest
  | _ => record

/-- Drop a third newline-TAB field that is bracketed and ends the record. -/
def dropComment (record : Text) : Text :=
  match splitText newlineTab record with
  | header :: message :: ('[' :: _) :: _ =>
      if record.getLast? = some ']' then header ++ newlineTab ++ message
      else record
  | _ => record

def unannotate (record : Text) : Text := dropComment (dropStatus record)

theorem dropWhile_isWordChar {word : Text} (rest : Text) (htab : '\t' ∉ word)
    (hnewline : '\n' ∉ word) :
    (word ++ rest).dropWhile isWordChar = rest.dropWhile isWordChar := by
  apply List.dropWhile_append_of_pos
  intro c hc
  have h₁ : c ≠ '\t' := fun h => htab (h ▸ hc)
  have h₂ : c ≠ '\n' := fun h => hnewline (h ▸ hc)
  simp [isWordChar, h₁, h₂]

theorem dropStatus_append {word : Text} (rest : Text) (htab : '\t' ∉ word)
    (hnewline : '\n' ∉ word) : dropStatus (word ++ '\t' :: rest) = rest := by
  rw [dropStatus, dropWhile_isWordChar _ htab hnewline]
  rfl

theorem dropStatus_of_line {line : Text} (rest : Text) (htab : '\t' ∉ line)
    (hnewline : '\n' ∉ line) :
    dropStatus (line ++ '\n' :: rest) = line ++ '\n' :: rest := by
  rw [dropStatus, dropWhile_isWordChar _ htab hnewline]
  rfl

theorem dropStatus_spec (record : Text) :
    ∃ status, record = status ++ dropStatus record ∧
      (status = [] ∨ ∃ word, status = word ++ ['\t'] ∧ '\t' ∉ word ∧ '\n' ∉ word) := by
  have hsplit := List.takeWhile_append_dropWhile (p := isWordChar) (l := record)
  unfold dropStatus
  split
  case h_1 rest hdrop =>
    refine ⟨record.takeWhile isWordChar ++ ['\t'], ?_, .inr ⟨_, rfl, ?_, ?_⟩⟩
    · rw [hdrop] at hsplit
      simp [hsplit]
    · exact fun h => by simpa [isWordChar] using List.mem_takeWhile_imp h
    · exact fun h => by simpa [isWordChar] using List.mem_takeWhile_imp h
  case h_2 => exact ⟨[], rfl, .inl rfl⟩

theorem dropComment_spec (record : Text) :
    ∃ comment, record = dropComment record ++ comment ∧
      (comment = [] ∨ ∃ inner, comment = newlineTab ++ '[' :: (inner ++ [']'])) := by
  have hjoin := intercalate_splitText (show newlineTab ≠ [] by decide) record
  unfold dropComment
  split
  case h_2 => exact ⟨[], by simp, .inl rfl⟩
  case h_1 header message third rest hfields =>
    split
    case isFalse => exact ⟨[], by simp, .inl rfl⟩
    case isTrue hlast =>
      rw [hfields, List.intercalate_cons_cons, List.intercalate_cons_cons] at hjoin
      obtain ⟨tail, htail⟩ : ∃ tail, newlineTab.intercalate (('[' :: third) :: rest) =
          '[' :: tail := by
        cases rest with
        | nil => exact ⟨third, by simp⟩
        | cons next rest => exact ⟨_, by rw [List.intercalate_cons_cons]; rfl⟩
      rw [htail] at hjoin
      obtain ⟨inner, hinner⟩ : ∃ inner, tail = inner ++ [']'] := by
        have hend : ('[' :: tail).getLast? = some ']' := by
          rw [← hjoin] at hlast
          simpa [List.getLast?_append] using hlast
        cases htail : tail.getLast? with
        | none => simp [List.getLast?_eq_none_iff.mp htail] at hend
        | some c =>
            obtain ⟨inner, rfl⟩ := List.getLast?_eq_some_iff.mp htail
            rw [← List.cons_append, List.getLast?_concat] at hend
            obtain rfl : c = ']' := by simpa using hend
            exact ⟨inner, rfl⟩
      exact ⟨newlineTab ++ '[' :: (inner ++ [']']), by simp [← hjoin, hinner],
        .inr ⟨inner, rfl⟩⟩

theorem isCopy_unannotate (record : Text) : IsCopy record (unannotate record) := by
  obtain ⟨status, hstatus, hword⟩ := dropStatus_spec record
  obtain ⟨comment, hcomment, hbracket⟩ := dropComment_spec (dropStatus record)
  refine ⟨status, comment, ?_, hword, hbracket⟩
  rw [unannotate, List.append_assoc, ← hcomment, ← hstatus]

/-! ## Findings -/

theorem dropComment_header {header message comment : Text}
    (hheader : '\n' ∉ header) (hmessage : '\n' ∉ message)
    (hcomment : comment = [] ∨
      ∃ inner, comment = newlineTab ++ '[' :: (inner ++ [']'])) :
    dropComment (header ++ newlineTab ++ message ++ comment) =
      header ++ newlineTab ++ message := by
  have hfields : splitText newlineTab (header ++ newlineTab ++ message ++ comment) =
      header :: splitText newlineTab (message ++ comment) := by
    rw [List.append_assoc]
    exact splitText_append_sep _ hheader
  rcases hcomment with rfl | ⟨inner, rfl⟩
  · rw [dropComment, hfields, List.append_nil, newlineTab,
      splitText_of_not_mem hmessage]
    simp
  · have hbracket : splitText newlineTab ('[' :: (inner ++ [']'])) =
        (splitText newlineTab (inner ++ [']'])).modifyHead ('[' :: ·) :=
      splitText_cons _ (by simp [newlineTab]) (by simp [newlineTab])
    obtain ⟨first, rest, hsplit⟩ := List.exists_cons_of_ne_nil
      (splitAtText_ne_nil newlineTab 0 (inner ++ [']']))
    have hmessage : splitText newlineTab (message ++ newlineTab ++ '[' :: (inner ++ [']'])) =
        message :: splitText newlineTab ('[' :: (inner ++ [']'])) :=
      splitText_append_sep _ hmessage
    rw [dropComment, hfields, ← List.append_assoc, hmessage, hbracket, splitText,
      hsplit, List.modifyHead_cons]
    have hlast : ('[' :: (inner ++ [']'])).getLast? = some ']' := by
      rw [← List.cons_append, List.getLast?_concat]
    simp [List.getLast?_append, hlast]

/-- Taking the annotation off any copy of a finding gives the finding back. -/
theorem unannotate_of_isCopy (f : Finding) {copy : Text} (h : IsCopy copy f.text) :
    unannotate copy = f.text := by
  obtain ⟨status, comment, rfl, hstatus, hcomment⟩ := h
  have hbody : dropStatus (status ++ f.text ++ comment) = f.text ++ comment := by
    rcases hstatus with rfl | ⟨word, rfl, htab, hnewline⟩
    · have := dropStatus_of_line ('\t' :: (f.message ++ comment))
        f.tab_not_mem_header f.newline_not_mem_header
      simpa [Finding.text, newlineTab] using this
    · have := dropStatus_append (f.text ++ comment) htab hnewline
      simpa using this
  rw [unannotate, hbody, Finding.text]
  exact dropComment_header f.newline_not_mem_header f.oneLine hcomment

theorem unannotate_eq_iff (f : Finding) (record : Text) :
    unannotate record = f.text ↔ IsCopy record f.text :=
  ⟨fun h => h ▸ isCopy_unannotate record, unannotate_of_isCopy f⟩

/-! ## When the identity is kept -/

/-- What is written for the finding is the finding under its annotation. -/
def KeepsIdentity (resultListAnalyzed : List Text) (f : Finding) : Prop :=
  ∀ transferred, transferRecord resultListAnalyzed f.text = .ok (some transferred) →
    unannotate transferred.record = f.text

/-- If the first related record contains the finding, it is a copy of it. -/
def ContainedOnlyInCopies (resultListAnalyzed : List Text) (f : Finding) : Prop :=
  ∀ new a, newRecord f.text = .ok (some new) →
    FirstRelated new resultListAnalyzed a → f.text <:+: strip a →
    IsCopy (strip a) f.text

theorem keepsIdentity_iff (resultListAnalyzed : List Text) (f : Finding) :
    KeepsIdentity resultListAnalyzed f ↔
      ContainedOnlyInCopies resultListAnalyzed f := by
  constructor
  · intro h new a hnew hfirst hcontains
    have hrecord := transferRecord_of_decides hnew
      (hfirst.decides_verbatim hnew hcontains) rfl
    exact (unannotate_eq_iff f _).mp (h _ hrecord)
  · intro h transferred hrecord
    apply unannotate_of_isCopy f
    rcases transferRecord_ok hrecord with ⟨hnone, -⟩ |
      ⟨new, hnew, ⟨a, v, record, hdecides, hwritten, hout⟩ | ⟨-, hout⟩⟩
    · simp at hnone
    · obtain rfl : transferred = ⟨record, true⟩ := by simpa using hout
      obtain ⟨hresult, -⟩ := newRecord_ok hnew
      have hfirst := hdecides.firstRelated hnew
      obtain ⟨-, -, -, -, hjudge, -⟩ := hdecides
      rcases judge_ok hjudge with rfl | ⟨rfl, -, hcontains⟩ | ⟨rfl, -⟩ | ⟨rfl, -⟩ <;>
        simp only [written, reduceCtorEq, Option.some.injEq, hresult] at hwritten
      · exact hwritten ▸ h new a hnew hfirst (hresult ▸ hcontains)
      · exact hwritten ▸ isCopy_annotate (strip a) f.text
      · exact hwritten ▸ isCopy_annotate (strip a) f.text
    · obtain rfl : transferred = ⟨f.text, false⟩ := by simpa using hout
      exact ⟨[], [], by simp, .inl rfl, .inl rfl⟩

def libFinding : Finding where
  path := "lib/x.c".toList
  line := "12".toList
  func := "f".toList
  level := "warn".toList
  id := "7".toList
  message := "read".toList
  words := by simp [isSpace]
  idChars := by simp [isIdChar]
  oneLine := by decide

/-- A finding in another directory contains it, and is written in its place. -/
theorem other_path_written :
    ¬ KeepsIdentity ["arch/lib/x.c:12 f() warn: {7}\n\tread".toList] libFinding ∧
    transferRecord ["arch/lib/x.c:12 f() warn: {7}\n\tread".toList]
        libFinding.text =
      .ok (some ⟨"arch/lib/x.c:12 f() warn: {7}\n\tread".toList, true⟩) := by
  have hrecord : transferRecord
      ["arch/lib/x.c:12 f() warn: {7}\n\tread".toList] libFinding.text =
      .ok (some ⟨"arch/lib/x.c:12 f() warn: {7}\n\tread".toList, true⟩) := by
    decide +kernel
  refine ⟨fun h => ?_, hrecord⟩
  exact absurd (h _ hrecord) (by decide +kernel)

end TdvfFuzz.Audit
