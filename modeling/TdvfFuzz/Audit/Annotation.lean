import TdvfFuzz.Audit.Conservation

/-!
# Annotated copies of a finding

A reviewed record is a finding with an optional status and TAB in front and an
optional newline, TAB and bracketed comment behind it.
-/

namespace TdvfFuzz.Audit

open TdvfFuzz.Foundation

/-- `[status TAB] n [newline TAB '[' comment ']']` -/
def IsCopy (copy n : Text) : Prop :=
  ∃ status comment : Text, copy = status ++ n ++ comment ∧
    (status = [] ∨ ∃ word, status = word ++ ['\t'] ∧ '\t' ∉ word ∧ '\n' ∉ word) ∧
    (comment = [] ∨ ∃ inner, comment = newlineTab ++ '[' :: (inner ++ [']']))

theorem IsCopy.contains {copy n : Text} (h : IsCopy copy n) : n <:+: copy := by
  obtain ⟨status, comment, rfl, -⟩ := h
  exact ⟨status, comment, rfl⟩

theorem bracketed_of_mem_commentAnalyzed {a comment : Text}
    (h : comment ∈ commentAnalyzed a) :
    ∃ inner, comment = '[' :: (inner ++ [']']) ∧ '\n' ∉ inner := by
  unfold commentAnalyzed at h
  split at h
  case h_2 => simp at h
  case h_1 =>
    obtain ⟨m, hm, rfl⟩ := List.mem_map.mp h
    obtain ⟨pre, last, hs, haccepts⟩ := Regex.mem_findall hm
    obtain ⟨opening, tail, _, _, hw, -, ⟨⟨c, rfl, hc⟩, -⟩,
      inner, closing, _, _, rfl, -, ⟨hinner, -⟩, ⟨⟨d, rfl, hd⟩, -⟩⟩ := haccepts
    obtain rfl : c = '[' := by simpa using hc
    obtain rfl : d = ']' := by simpa using hd
    exact ⟨inner, hw, fun hmem => by simpa using hinner '\n' hmem⟩

/-- The rebuilt record is an annotated copy, whatever record it was rebuilt from. -/
theorem isCopy_annotate (a n : Text) :
    IsCopy (annotate (statusAnalyzed a) (commentAnalyzed a) n) n := by
  have hstatus := @not_mem_statusAnalyzed a
  refine ⟨if statusAnalyzed a = [] then [] else statusAnalyzed a ++ ['\t'],
    (commentAnalyzed a).head?.elim [] (newlineTab ++ ·), ?_, ?_, ?_⟩
  · unfold annotate
    cases commentAnalyzed a <;> split <;> simp
  · split
    · exact .inl rfl
    · exact .inr ⟨_, rfl, hstatus.1, hstatus.2⟩
  · cases hcomments : commentAnalyzed a with
    | nil => exact .inl rfl
    | cons comment rest =>
        obtain ⟨inner, hinner, -⟩ :=
          bracketed_of_mem_commentAnalyzed (show comment ∈ commentAnalyzed a by simp [hcomments])
        exact .inr ⟨inner, by simp [hinner]⟩

/-! ## Records of the expected shape -/

/-- A finding as the static analyser reports it. -/
structure Finding where
  path : Text
  line : Text
  func : Text
  level : Text
  id : Text
  message : Text
  words : ∀ c ∈ path ++ line ++ func ++ level, isSpace c = false
  idChars : ∀ c ∈ id, isIdChar c = true
  oneLine : '\n' ∉ message

namespace Finding

/-- `path:line func() level: {id}` -/
def header (f : Finding) : Text :=
  f.path ++ ':' :: f.line ++ ' ' :: f.func ++ "() ".toList ++ f.level ++
    [':', ' ', '\x7b'] ++ f.id ++ ['\x7d']

def text (f : Finding) : Text := f.header ++ newlineTab ++ f.message

theorem not_mem_header (f : Finding) {c : Char} (hspace : isSpace c = true)
    (hid : isIdChar c = false) (hblank : c ≠ ' ') : c ∉ f.header := by
  have hwords : c ∉ f.path ++ f.line ++ f.func ++ f.level := fun hc => by
    simp [f.words c hc] at hspace
  have hidChars : c ∉ f.id := fun hc => by simp [f.idChars c hc] at hid
  have hpunct : ∀ d ∈ [':', '(', ')', '\x7b', '\x7d'], c ≠ d := by
    rintro d hd rfl
    have : ∀ d ∈ [':', '(', ')', '\x7b', '\x7d'], isSpace d = false := by
      simp [isSpace]
    simp [this c hd] at hspace
  simp only [List.mem_append, not_or] at hwords
  simp only [List.forall_mem_cons] at hpunct
  simp [header, hwords, hidChars, hblank, hpunct]

theorem tab_not_mem_header (f : Finding) : '\t' ∉ f.header :=
  f.not_mem_header (by decide) (by decide) (by decide)

theorem newline_not_mem_header (f : Finding) : '\n' ∉ f.header :=
  f.not_mem_header (by decide) (by decide) (by decide)

end Finding

end TdvfFuzz.Audit
