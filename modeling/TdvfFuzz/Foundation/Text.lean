import Mathlib.Data.List.DropRight
import Mathlib.Data.List.Infix
import Mathlib.Data.List.Basic

/-!
# Texts and their splitting

Texts are lists of characters.  The operations follow the string methods of
the scripting languages that read and write the reports: trimming a set of
characters at both ends, splitting at one character (`List.splitOn`) and
splitting at a longer separator.
-/

namespace TdvfFuzz.Foundation

abbrev Text := List Char

/-- A statement about the characters of a text is decided along the text. -/
instance (priority := 1100) decidableForallMem (p : Char → Prop) [DecidablePred p] (s : Text) :
    Decidable (∀ c ∈ s, p c) :=
  List.decidableBAll p s

/-! ## Trimming -/

def stripBy (p : Char → Bool) (s : Text) : Text :=
  (s.dropWhile p).rdropWhile p

theorem stripBy_isInfix (p : Char → Bool) (s : Text) : stripBy p s <:+: s :=
  (List.rdropWhile_prefix p _).isInfix.trans (List.dropWhile_suffix p).isInfix

theorem mem_of_mem_stripBy {p : Char → Bool} {s : Text} {c : Char}
    (h : c ∈ stripBy p s) : c ∈ s :=
  (stripBy_isInfix p s).subset h

theorem stripBy_eq_self {p : Char → Bool} {s : Text} (h : ∀ c ∈ s, p c = false) :
    stripBy p s = s := by
  have hfirst : s.dropWhile p = s := List.dropWhile_eq_self_iff.mpr fun hpos => by simp [h]
  rw [stripBy, hfirst, List.rdropWhile_eq_self_iff]
  exact fun hne => by simp [h]

/-- The characters that Unicode-aware `str.isspace` accepts. -/
def isSpace (c : Char) : Bool :=
  let n := c.toNat
  (9 ≤ n && n ≤ 13) || (28 ≤ n && n ≤ 32) || n == 0x85 || n == 0xa0 ||
    n == 0x1680 || (0x2000 ≤ n && n ≤ 0x200a) || n == 0x2028 || n == 0x2029 ||
    n == 0x202f || n == 0x205f || n == 0x3000

/-- `str.strip()`. -/
def strip (s : Text) : Text := stripBy isSpace s

theorem strip_eq_self {s : Text} (h : ∀ c ∈ s, isSpace c = false) : strip s = s :=
  stripBy_eq_self h

theorem strip_of_ends {c d : Char} (s : Text) (hc : isSpace c = false) (hd : isSpace d = false) :
    strip (c :: (s ++ [d])) = c :: (s ++ [d]) := by
  have hfirst : (c :: (s ++ [d])).dropWhile isSpace = (c :: s) ++ [d] := by simp [hc]
  rw [strip, stripBy, hfirst, List.rdropWhile_concat_neg _ _ _ (by simp [hd])]
  simp

/-! ## Patterns without a character of the text -/

theorem prefix_append_cons_iff {p : Text} {c : Char} (s t : Text) (h : c ∉ p) :
    p <+: s ++ c :: t ↔ p <+: s := by
  induction s generalizing p with
  | nil =>
      cases p with
      | nil => simp
      | cons d p =>
          have hcd : d ≠ c := fun hd => h (by simp [hd])
          simp [hcd]
  | cons d s ih =>
      cases p with
      | nil => simp
      | cons e p =>
          rw [List.cons_append, List.cons_prefix_cons, List.cons_prefix_cons,
            ih fun hmem => h (List.mem_cons_of_mem e hmem)]

theorem infix_append_cons_iff {p : Text} {c : Char} (s t : Text) (h : c ∉ p) :
    p <:+: s ++ c :: t ↔ p <:+: s ∨ p <:+: t := by
  induction s with
  | nil =>
      have hprefix := prefix_append_cons_iff [] t h
      simp only [List.nil_append, List.prefix_nil] at hprefix
      rw [List.nil_append, List.infix_cons_iff, hprefix, List.infix_nil]
  | cons d s ih =>
      rw [List.cons_append, List.infix_cons_iff, ih, ← List.cons_append,
        prefix_append_cons_iff _ _ h, List.infix_cons_iff, or_assoc]

theorem run_unique {p : Char → Bool} {u v s t : Text} {c d : Char}
    (hu : ∀ x ∈ u, p x = true) (hv : ∀ x ∈ v, p x = true) (hc : p c = false) (hd : p d = false)
    (h : u ++ c :: s = v ++ d :: t) : u = v ∧ c = d ∧ s = t := by
  have hrun : ∀ {w x : Text} {e : Char}, (∀ y ∈ w, p y = true) → p e = false →
      (w ++ e :: x).takeWhile p = w := by
    intro w x e hw he
    rw [List.takeWhile_append_of_pos hw]
    simp [he]
  have huv : u = v := by
    rw [← hrun hu hc (x := s), h, hrun hv hd]
  subst huv
  have htail := List.append_cancel_left h
  exact ⟨rfl, (List.cons.inj htail).1, (List.cons.inj htail).2⟩

/-- What is before the first separator. -/
theorem eq_of_append_cons {d : Char} {u v s t : Text} (hu : d ∉ u) (hv : d ∉ v)
    (h : u ++ d :: s = v ++ d :: t) : u = v ∧ s = t := by
  have hne : ∀ {w : Text}, d ∉ w → ∀ c ∈ w, decide (c ≠ d) = true := fun hw c hc =>
    decide_eq_true fun heq => hw (heq ▸ hc)
  have hparts := run_unique (hne hu) (hne hv) (by simp) (by simp) h
  exact ⟨hparts.1, hparts.2.2⟩

theorem exists_last_of_mem {c : Char} {s : Text} (h : c ∈ s) : ∃ u v, s = u ++ c :: v ∧ c ∉ v := by
  obtain ⟨v, u, hs, hv⟩ := List.eq_append_cons_of_mem (List.mem_reverse.mpr h)
  refine ⟨u.reverse, v.reverse, ?_, by simpa using hv⟩
  have := congrArg List.reverse hs
  simpa using this

theorem last_unique {u v s t : Text} {c : Char} (hs : c ∉ s) (ht : c ∉ t)
    (h : u ++ c :: s = v ++ c :: t) : u = v ∧ s = t := by
  have hreverse : s.reverse ++ c :: u.reverse = t.reverse ++ c :: v.reverse := by
    simpa using congrArg List.reverse h
  have hother : ∀ {w : Text}, c ∉ w → ∀ d ∈ w.reverse, (d != c) = true := by
    intro w hw d hd
    rw [bne_iff_ne]
    rintro rfl
    exact hw (List.mem_reverse.mp hd)
  obtain ⟨hst, -, huv⟩ := run_unique (p := (· != c)) (hother hs) (hother ht)
    (by simp) (by simp) hreverse
  exact ⟨List.reverse_inj.mp huv, List.reverse_inj.mp hst⟩

theorem mem_of_append_cons_eq {u v x y : Text} {c d : Char} (hu : c ∉ u) (hd : d ∈ y)
    (h : u ++ c :: v = x ++ c :: y) : d ∈ v := by
  rcases List.append_eq_append_iff.mp h with ⟨z, rfl, hz⟩ | ⟨z, rfl, hz⟩
  · cases z with
    | nil => exact (List.cons.inj hz).2 ▸ hd
    | cons e z =>
        obtain ⟨rfl, rfl⟩ := List.cons.inj hz
        simp [hd]
  · cases z with
    | nil => exact (List.cons.inj hz).2 ▸ hd
    | cons e z =>
        obtain ⟨rfl, -⟩ := List.cons.inj hz
        simp at hu

theorem exists_run {p : Char → Bool} {e : Char} (he : p e = false) (s v : Text) :
    ∃ u c t, s ++ e :: v = u ++ c :: t ∧ (∀ d ∈ u, p d = true) ∧ p c = false ∧
      (c ∈ s ∨ c = e) := by
  induction s with
  | nil => exact ⟨[], e, v, rfl, by simp, he, .inr rfl⟩
  | cons d s ih =>
      by_cases hd : p d = true
      · obtain ⟨u, c, t, heq, hu, hc, hmem⟩ := ih
        refine ⟨d :: u, c, t, by simp [heq], by simpa [hd] using hu, hc, ?_⟩
        exact hmem.imp_left (List.mem_cons_of_mem d)
      · exact ⟨[], d, s ++ e :: v, rfl, by simp, by simpa using hd, .inl (by simp)⟩

theorem rtakeWhile_append_cons {p : Char → Bool} {c : Char} {last : Text} (s : Text)
    (hc : p c = false) (hlast : ∀ d ∈ last, p d = true) :
    (s ++ c :: last).rtakeWhile p = last := by
  rw [List.rtakeWhile, List.reverse_append, List.reverse_cons, List.append_assoc,
    List.takeWhile_append_of_pos (by simpa using hlast)]
  simp [hc]

/-! ## Splitting at one character -/

theorem rdropWhile_append_cons {p : Char → Bool} {c : Char} (u v : Text) (hc : p c = false) :
    (u ++ c :: v).rdropWhile p = u ++ c :: v.rdropWhile p := by
  induction v using List.reverseRecOn with
  | nil => simp [List.rdropWhile_concat_neg _ _ _ (by simp [hc] : ¬ p c = true)]
  | append_singleton v d ih =>
      rw [← List.cons_append, ← List.append_assoc]
      by_cases hd : p d = true
      · rw [List.rdropWhile_concat_pos _ _ _ hd, List.rdropWhile_concat_pos _ _ _ hd, ih]
      · rw [List.rdropWhile_concat_neg _ _ _ hd, List.rdropWhile_concat_neg _ _ _ hd]
        simp

theorem not_of_mem_splitOnP (p : Char → Bool) :
    ∀ (s : Text) {piece : Text}, piece ∈ s.splitOnP p → ∀ c ∈ piece, p c = false
  | [], piece, h => by
      obtain rfl : piece = [] := by simpa using h
      simp
  | c :: s, piece, h => by
      rw [List.splitOnP_cons_eq_if_modifyHead] at h
      by_cases hc : p c = true
      · rw [if_pos hc] at h
        rcases List.mem_cons.mp h with rfl | h
        · simp
        · exact not_of_mem_splitOnP p s h
      · rw [if_neg hc] at h
        obtain ⟨first, rest, hsplit⟩ :=
          List.exists_cons_of_ne_nil (List.splitOnP_ne_nil p s)
        rw [hsplit, List.modifyHead_cons] at h
        rcases List.mem_cons.mp h with rfl | h
        · have hfirst := not_of_mem_splitOnP p s (show first ∈ s.splitOnP p by simp [hsplit])
          simpa [hc] using hfirst
        · exact not_of_mem_splitOnP p s (by simp [hsplit, h])

theorem not_mem_of_mem_splitOn (sep : Char) (s piece : Text) (h : piece ∈ s.splitOn sep) :
    sep ∉ piece := by
  rw [List.splitOn_eq_splitOnP] at h
  intro hmem
  simpa using not_of_mem_splitOnP (· == sep) s h sep hmem

theorem mem_of_mem_splitOn (sep : Char) {c : Char} :
    ∀ (s : Text) {piece : Text}, piece ∈ s.splitOn sep → c ∈ piece → c ∈ s
  | [], piece, h, hc => by
      obtain rfl : piece = [] := by simpa using h
      exact hc
  | d :: s, piece, h, hc => by
      rw [List.splitOn_cons_eq_if_modifyHead] at h
      split at h
      · rcases List.mem_cons.mp h with rfl | h
        · simp at hc
        · exact List.mem_cons_of_mem d (mem_of_mem_splitOn sep s h hc)
      · obtain ⟨first, rest, hsplit⟩ :=
          List.exists_cons_of_ne_nil (List.splitOn_ne_nil sep s)
        rw [hsplit, List.modifyHead_cons] at h
        rcases List.mem_cons.mp h with rfl | h
        · rcases List.mem_cons.mp hc with rfl | hc
          · simp
          · exact List.mem_cons_of_mem d
              (mem_of_mem_splitOn sep s (by simp [hsplit]) hc)
        · exact List.mem_cons_of_mem d
            (mem_of_mem_splitOn sep s (by rw [hsplit]; simp [h]) hc)

theorem splitOn_append_sep (sep : Char) (first rest : Text) (h : sep ∉ first) :
    (first ++ sep :: rest).splitOn sep = first :: rest.splitOn sep :=
  List.splitOn_append_cons_self_of_not_mem h rest

/-! ## Joining -/

theorem intercalate_concat {sep : Text} {words : List Text} (h : words ≠ []) (word : Text) :
    sep.intercalate (words ++ [word]) = sep.intercalate words ++ (sep ++ word) := by
  induction words with
  | nil => contradiction
  | cons first words ih =>
      cases words with
      | nil => simp
      | cons second words =>
          have hrest := ih (by simp)
          simp only [List.cons_append, List.intercalate_cons_cons] at hrest ⊢
          rw [hrest]
          simp only [List.append_assoc]

theorem mem_of_mem_intercalate {sep : Text} {words : List Text} {c : Char}
    (h : c ∈ sep.intercalate words) : c ∈ sep ∨ ∃ word ∈ words, c ∈ word := by
  induction words with
  | nil => simp at h
  | cons first words ih =>
      cases words with
      | nil => exact .inr ⟨first, by simp, by simpa using h⟩
      | cons second words =>
          simp only [List.intercalate_cons_cons, List.mem_append] at h
          rcases h with (h | h) | h
          · exact .inr ⟨first, by simp, h⟩
          · exact .inl h
          · exact (ih h).imp_right fun ⟨word, hword, hc⟩ =>
              ⟨word, List.mem_cons_of_mem _ hword, hc⟩

theorem intercalate_eq_nil_iff (sep : Text) {words : List Text} (h : ∀ word ∈ words, word ≠ []) :
    sep.intercalate words = [] ↔ words = [] := by
  cases words with
  | nil => simp
  | cons first words =>
      have hfirst : first ≠ [] := h first (by simp)
      cases words with
      | nil => simpa using hfirst
      | cons second words => simp [List.intercalate_cons_cons, hfirst]

theorem flatMap_intercalate {sep : Char} {f : Char → Text} {words : List Text}
    (h : ∀ word ∈ words, ∀ c ∈ word, f c = [c]) :
    ([sep].intercalate words).flatMap f = (f sep).intercalate words := by
  have hword : ∀ {word : Text}, (∀ c ∈ word, f c = [c]) → word.flatMap f = word := by
    intro word hkeep
    rw [List.flatMap_congr hkeep, List.flatMap_singleton']
  induction words with
  | nil => rfl
  | cons first words ih =>
      obtain ⟨hfirst, hrest⟩ := List.forall_mem_cons.mp h
      cases words with
      | nil => simpa using hword hfirst
      | cons second words =>
          simp only [List.intercalate_cons_cons, List.flatMap_append, ih hrest, hword hfirst,
            List.flatMap_singleton]

/-! ## Splitting at a separator text -/

/--
`skip` characters of a matched separator are still to be passed.  The search
resumes after the separator, so occurrences do not overlap.
-/
def splitAtText (sep : Text) : Nat → Text → List Text
  | _, [] => [[]]
  | skip + 1, _ :: s => splitAtText sep skip s
  | 0, c :: s =>
      if sep.isPrefixOf (c :: s) then [] :: splitAtText sep (sep.length - 1) s
      else (splitAtText sep 0 s).modifyHead (c :: ·)

/-- `s.split(sep)` for a nonempty separator. -/
def splitText (sep s : Text) : List Text := splitAtText sep 0 s

theorem splitAtText_ne_nil (sep : Text) :
    ∀ (skip : Nat) (s : Text), splitAtText sep skip s ≠ []
  | skip, [] => by simp [splitAtText]
  | skip + 1, _ :: s => by
      simpa [splitAtText] using splitAtText_ne_nil sep skip s
  | 0, c :: s => by
      simp only [splitAtText]
      split
      · simp
      · simpa using splitAtText_ne_nil sep 0 s

theorem mem_of_mem_splitAtText (sep : Text) {c : Char} :
    ∀ (skip : Nat) (s : Text) {piece : Text}, piece ∈ splitAtText sep skip s →
      c ∈ piece → c ∈ s
  | skip, [], piece, h, hc => by
      obtain rfl : piece = [] := by simpa [splitAtText] using h
      exact hc
  | skip + 1, d :: s, piece, h, hc =>
      List.mem_cons_of_mem d (mem_of_mem_splitAtText sep skip s h hc)
  | 0, d :: s, piece, h, hc => by
      simp only [splitAtText] at h
      split at h
      · rcases List.mem_cons.mp h with rfl | h
        · simp at hc
        · exact List.mem_cons_of_mem d
            (mem_of_mem_splitAtText sep (sep.length - 1) s h hc)
      · obtain ⟨first, rest, hsplit⟩ :=
          List.exists_cons_of_ne_nil (splitAtText_ne_nil sep 0 s)
        rw [hsplit, List.modifyHead_cons] at h
        rcases List.mem_cons.mp h with rfl | h
        · rcases List.mem_cons.mp hc with rfl | hc
          · simp
          · exact List.mem_cons_of_mem d
              (mem_of_mem_splitAtText sep 0 s (by simp [hsplit]) hc)
        · exact List.mem_cons_of_mem d
            (mem_of_mem_splitAtText sep 0 s (by rw [hsplit]; simp [h]) hc)

theorem splitAtText_skip (sep passed s : Text) :
    splitAtText sep passed.length (passed ++ s) = splitAtText sep 0 s := by
  induction passed with
  | nil => rfl
  | cons c passed ih => simpa [splitAtText] using ih

theorem splitText_sep_append {sep : Text} (hsep : sep ≠ []) (s : Text) :
    splitText sep (sep ++ s) = [] :: splitText sep s := by
  cases sep with
  | nil => contradiction
  | cons c sep =>
      have hprefix : (c :: sep).isPrefixOf (c :: (sep ++ s)) = true :=
        List.isPrefixOf_iff_prefix.mpr ⟨s, rfl⟩
      simp only [splitText, List.cons_append, splitAtText, hprefix, if_true,
        List.length_cons, Nat.add_sub_cancel]
      rw [splitAtText_skip]

theorem splitText_cons {sep : Text} {c : Char} (s : Text)
    (h : ∀ d ∈ sep.head?, c ≠ d) (hsep : sep ≠ []) :
    splitText sep (c :: s) = (splitText sep s).modifyHead (c :: ·) := by
  cases sep with
  | nil => contradiction
  | cons d sep =>
      have hcd : c ≠ d := h d rfl
      simp [splitText, splitAtText, List.isPrefixOf, Ne.symm hcd]

theorem splitText_append_sep {d : Char} {sep first : Text} (rest : Text)
    (h : d ∉ first) :
    splitText (d :: sep) (first ++ (d :: sep) ++ rest) =
      first :: splitText (d :: sep) rest := by
  induction first with
  | nil => simpa using splitText_sep_append (List.cons_ne_nil d sep) rest
  | cons c first ih =>
      simp only [List.mem_cons, not_or] at h
      rw [List.cons_append, List.cons_append,
        splitText_cons _ (by simpa using Ne.symm h.1) (by simp), ih h.2]
      rfl

theorem splitText_of_not_mem {d : Char} {sep s : Text} (h : d ∉ s) :
    splitText (d :: sep) s = [s] := by
  induction s with
  | nil => rfl
  | cons c s ih =>
      simp only [List.mem_cons, not_or] at h
      rw [splitText_cons _ (by simpa using Ne.symm h.1) (by simp), ih h.2]
      rfl

theorem intercalate_splitAtText {sep : Text} (hsep : sep ≠ []) :
    ∀ (skip : Nat) (s : Text), skip ≤ s.length →
      sep.intercalate (splitAtText sep skip s) = s.drop skip
  | skip, [], h => by
      obtain rfl : skip = 0 := by simpa using h
      simp [splitAtText]
  | skip + 1, c :: s, h => by
      simpa [splitAtText] using
        intercalate_splitAtText hsep skip s (by simpa using h)
  | 0, c :: s, h => by
      simp only [splitAtText]
      split
      case isTrue hprefix =>
        obtain ⟨tail, htail⟩ := List.isPrefixOf_iff_prefix.mp hprefix
        have hlen : sep.length - 1 ≤ s.length := by
          have := congrArg List.length htail
          simp at this
          omega
        have ih := intercalate_splitAtText hsep (sep.length - 1) s hlen
        rw [List.intercalate_cons_of_ne_nil (splitAtText_ne_nil sep _ s), ih]
        have hdrop : s.drop (sep.length - 1) = tail := by
          cases sep with
          | nil => contradiction
          | cons d sep =>
              obtain ⟨rfl, rfl⟩ := List.cons.inj htail
              simp
        simp [hdrop, htail]
      case isFalse =>
        have ih := intercalate_splitAtText hsep 0 s (by omega)
        obtain ⟨first, rest, hsplit⟩ :=
          List.exists_cons_of_ne_nil (splitAtText_ne_nil sep 0 s)
        rw [hsplit] at ih ⊢
        cases rest with
        | nil => simpa using ih
        | cons second rest =>
            simpa [List.intercalate_cons_cons] using ih

theorem intercalate_splitText {sep : Text} (hsep : sep ≠ []) (s : Text) :
    sep.intercalate (splitText sep s) = s := by
  simpa [splitText] using intercalate_splitAtText hsep 0 s (by omega)

end TdvfFuzz.Foundation
