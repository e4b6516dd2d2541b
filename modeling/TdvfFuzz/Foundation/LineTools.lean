import Mathlib.Data.Char
import Mathlib.Data.Finset.Card
import Mathlib.Data.List.Destutter
import Mathlib.Data.List.Lex
import Mathlib.Data.List.Sort
import TdvfFuzz.Foundation.Lines
import TdvfFuzz.Foundation.Records

/-!
# Tools that work on the lines of a file

`sed` edits every line, `sort` puts the lines in the order of the locale and
`uniq` drops a line that repeats the one before.  Behind `sort | uniq` only the
set of the lines matters.
-/

namespace TdvfFuzz.Foundation

/-! ## Lines -/

/-- The lines of a file, where the last one may lack its newline. -/
def fileLines (s : Text) : List Text :=
  let pieces := s.splitOn '\n'
  if pieces.getLast? = some [] then pieces.dropLast else pieces

theorem fileLines_terminated {lines : List Text} (h : ∀ line ∈ lines, '\n' ∉ line) :
    fileLines (terminated '\n' lines) = lines := by
  simp [fileLines, splitOn_terminated h]

theorem splitlines_terminated {lines : List Text}
    (h : ∀ line ∈ lines, ∀ c ∈ line, c ≠ '\r' ∧ isLineBreak c = false) :
    splitlines (terminated '\n' lines) = lines := by
  have hunlines : terminated '\n' lines =
      unlines (lines.map fun line => (line, LineEnd.newline)) [] := by
    simp [terminated, unlines, List.flatMap_map, LineEnd.text]
  rw [splitlines, hunlines, linesAt_unlines (by decide) _ (by simp)]
  · simp [Function.comp_def]
  · simpa using h

theorem not_break_of_mem_consLine {isBreak : Char → Bool} {c : Char} {lines : List Text}
    (hc : isBreak c = false) (h : ∀ line ∈ lines, ∀ d ∈ line, isBreak d = false) :
    ∀ line ∈ consLine c lines, ∀ d ∈ line, isBreak d = false := by
  cases lines with
  | nil => simpa [consLine] using hc
  | cons line rest => simpa [consLine, hc] using h

theorem not_break_of_mem_linesAt {isBreak : Char → Bool} (s : Text) :
    ∀ line ∈ linesAt isBreak s, ∀ c ∈ line, isBreak c = false := by
  induction s using (linesAt.induct isBreak) with
  | case1 => simp [linesAt]
  | case2 s ih => simpa [linesAt] using ih
  | case3 c s hreturn hbreak ih =>
      rw [linesAt, if_pos hbreak]
      · simpa using ih
      · exact hreturn
  | case4 c s hreturn hbreak ih =>
      rw [linesAt, if_neg hbreak]
      · exact not_break_of_mem_consLine (by simpa using hbreak) ih
      · exact hreturn

/-- Every line edited; a newline that lacks at the end still lacks. -/
def sed (edit : Text → Text) (s : Text) : Text :=
  let edited := terminated '\n' ((fileLines s).map edit)
  if s.getLast? = some '\n' then edited else edited.dropLast

theorem sed_terminated (edit : Text → Text) {lines : List Text}
    (h : ∀ line ∈ lines, '\n' ∉ line) :
    sed edit (terminated '\n' lines) = terminated '\n' (lines.map edit) := by
  rw [sed, fileLines_terminated h]
  rcases List.eq_nil_or_concat lines with rfl | ⟨front, last, rfl⟩
  · rfl
  · have hlast : (terminated '\n' (front.concat last)).getLast? = some '\n' := by
      simp [terminated]
    rw [if_pos hlast]

/-- `head -n` -/
def head (n : ℕ) (s : Text) : Text :=
  if (fileLines s).length ≤ n then s else terminated '\n' ((fileLines s).take n)

theorem head_terminated (n : ℕ) {lines : List Text} (h : ∀ line ∈ lines, '\n' ∉ line) :
    head n (terminated '\n' lines) = terminated '\n' (lines.take n) := by
  rw [head, fileLines_terminated h]
  split_ifs with hlength
  · rw [List.take_of_length_le hlength]
  · rfl

/-- `s/text//g` for a text that is its own pattern. -/
def removeText (text line : Text) : Text := (splitText text line).flatten

theorem mem_of_mem_removeText {text line : Text} {c : Char} (h : c ∈ removeText text line) :
    c ∈ line := by
  obtain ⟨piece, hpiece, hc⟩ := List.mem_flatten.mp h
  exact mem_of_mem_splitAtText text 0 line hpiece hc

theorem splitText_of_not_infix {sep s : Text} (hsep : sep ≠ []) (h : ¬ sep <:+: s) :
    splitText sep s = [s] := by
  have hjoin := intercalate_splitText hsep s
  obtain ⟨first, rest, hsplit⟩ := List.exists_cons_of_ne_nil (splitAtText_ne_nil sep 0 s)
  rw [splitText, hsplit] at hjoin ⊢
  cases rest with
  | nil => simpa using hjoin
  | cons second rest =>
      rw [List.intercalate_cons_cons] at hjoin
      exact absurd ⟨first, _, hjoin⟩ h

theorem removeText_of_not_infix {text line : Text} (hne : text ≠ []) (h : ¬ text <:+: line) :
    removeText text line = line := by
  simp [removeText, splitText_of_not_infix hne h]

theorem removeText_self_append {text : Text} (hne : text ≠ []) (line : Text) :
    removeText text (text ++ line) = removeText text line := by
  rw [removeText, splitText_sep_append hne]
  rfl

/-- No copy of the text starts in a part without its first character. -/
theorem removeText_front {d : Char} {text front : Text} (line : Text) (h : d ∉ front) :
    removeText (d :: text) (front ++ line) = front ++ removeText (d :: text) line := by
  induction front with
  | nil => rfl
  | cons c front ih =>
      simp only [List.mem_cons, not_or] at h
      obtain ⟨first, rest, hsplit⟩ := List.exists_cons_of_ne_nil
        (splitAtText_ne_nil (d :: text) 0 (front ++ line))
      have ih := ih h.2
      rw [removeText, splitText, hsplit] at ih
      rw [List.cons_append, removeText, splitText_cons _ (by simpa using Ne.symm h.1) (by simp),
        splitText, hsplit, List.modifyHead_cons, List.flatten_cons, List.cons_append,
        List.cons_append, ← ih, List.flatten_cons]

/-- No copy of the text reaches into a part behind a character that it lacks. -/
theorem removeText_back {d e : Char} {text back : Text} (s : Text) (he : e ∉ d :: text)
    (h : d ∉ back) :
    removeText (d :: text) (s ++ e :: back) = removeText (d :: text) s ++ e :: back := by
  have hskip : ∀ (skip : Nat) (s : Text), skip ≤ s.length →
      (splitAtText (d :: text) skip (s ++ e :: back)).flatten =
        (splitAtText (d :: text) skip s).flatten ++ e :: back := by
    intro skip s
    induction skip, s using splitAtText.induct (d :: text) with
    | case1 skip =>
        intro hle
        obtain rfl : skip = 0 := by simpa using hle
        have hback : splitAtText (d :: text) 0 back = [back] := splitText_of_not_mem h
        have hne : d ≠ e := fun heq => he (by simp [heq])
        simp [splitAtText, List.isPrefixOf, hne, hback]
    | case2 skip c s ih => exact fun hle => ih (by simpa using hle)
    | case3 c s hprefix ih =>
        intro hle
        have hprefix' : (d :: text).isPrefixOf (c :: s ++ e :: back) = true := by
          rw [List.isPrefixOf_iff_prefix] at hprefix ⊢
          exact (prefix_append_cons_iff _ _ he).mpr hprefix
        have hlength := (List.isPrefixOf_iff_prefix.mp hprefix).length_le
        simp only [List.length_cons] at hlength
        rw [List.cons_append] at hprefix' ⊢
        rw [splitAtText, if_pos hprefix', splitAtText, if_pos hprefix, List.flatten_cons,
          List.flatten_cons, ih (by simpa using hlength)]
        rfl
    | case4 c s hprefix ih =>
        intro hle
        have hprefix' : ¬(d :: text).isPrefixOf (c :: s ++ e :: back) = true := by
          rw [List.isPrefixOf_iff_prefix] at hprefix ⊢
          exact fun hlong => hprefix ((prefix_append_cons_iff _ _ he).mp hlong)
        have ih := ih (Nat.zero_le _)
        obtain ⟨first, rest, hsplit⟩ :=
          List.exists_cons_of_ne_nil (splitAtText_ne_nil (d :: text) 0 s)
        obtain ⟨first', rest', hsplit'⟩ :=
          List.exists_cons_of_ne_nil (splitAtText_ne_nil (d :: text) 0 (s ++ e :: back))
        rw [hsplit, hsplit', List.flatten_cons, List.flatten_cons] at ih
        rw [List.cons_append] at hprefix' ⊢
        rw [splitAtText, if_neg hprefix', splitAtText, if_neg hprefix, hsplit, hsplit']
        simp [ih]
  exact hskip 0 s (Nat.zero_le _)

/-! ## Sorting -/

/-- The order of a locale, where texts that compare as equal are compared by bytes. -/
structure Collation where
  le : Text → Text → Prop
  decidableLe : DecidableRel le
  total : ∀ x y, le x y ∨ le y x
  trans : ∀ x y z, le x y → le y z → le x z
  antisymm : ∀ x y, le x y → le y x → x = y

namespace Collation

variable (c : Collation)

instance : DecidableRel c.le := c.decidableLe

instance : Std.Total c.le := ⟨c.total⟩

instance : IsTrans Text c.le := ⟨c.trans⟩

def sort (lines : List Text) : List Text := lines.insertionSort c.le

/-- The order of the locale `C`. -/
def codePoints : Collation where
  le x y := x ≤ y
  decidableLe := inferInstance
  total := le_total
  trans _ _ _ := le_trans
  antisymm _ _ := le_antisymm

end Collation

def uniq (lines : List Text) : List Text := lines.destutter (· ≠ ·)

@[simp] theorem mem_uniq {lines : List Text} {line : Text} : line ∈ uniq lines ↔ line ∈ lines := by
  have hrest : ∀ (lines : List Text) (first : Text),
      line ∈ lines.destutter' (· ≠ ·) first ↔ line = first ∨ line ∈ lines := by
    intro lines
    induction lines with
    | nil => simp
    | cons second lines ih =>
        intro first
        by_cases h : first = second
        · rw [List.destutter'_cons_neg _ (not_not.mpr h), ih, h]
          simp
        · rw [List.destutter'_cons_pos _ h, List.mem_cons, ih, List.mem_cons]
  cases lines with
  | nil => simp [uniq]
  | cons first lines => rw [uniq, List.destutter_cons', hrest, List.mem_cons]

namespace Collation

variable (c : Collation)

/-- `sort | uniq` -/
def sortUniq (lines : List Text) : List Text := uniq (c.sort lines)

@[simp] theorem mem_sortUniq {lines : List Text} {line : Text} :
    line ∈ c.sortUniq lines ↔ line ∈ lines := by
  rw [sortUniq, mem_uniq, sort, List.mem_insertionSort]

theorem pairwise_sortUniq (lines : List Text) :
    (c.sortUniq lines).Pairwise fun x y => c.le x y ∧ x ≠ y := by
  have hsorted : (c.sortUniq lines).Pairwise c.le :=
    (List.pairwise_insertionSort c.le lines).sublist (List.destutter_sublist _ _)
  have hchain : (c.sortUniq lines).IsChain (· ≠ ·) := List.isChain_destutter _ _
  generalize c.sortUniq lines = result at hsorted hchain
  induction result with
  | nil => exact .nil
  | cons x lines ih =>
      obtain ⟨hx, hlines⟩ := List.pairwise_cons.mp hsorted
      refine .cons (fun y hy => ⟨hx y hy, ?_⟩) (ih hlines hchain.tail)
      rintro rfl
      -- the line behind `x` is below a copy of `x`, so it is `x`
      obtain ⟨z, rest, rfl⟩ := List.exists_cons_of_ne_nil (List.ne_nil_of_mem hy)
      rw [List.isChain_cons_cons] at hchain
      apply hchain.1
      rcases List.mem_cons.mp hy with rfl | hy
      · rfl
      · exact c.antisymm _ _ (hx z (by simp)) ((List.pairwise_cons.mp hlines).1 x hy)

theorem nodup_sortUniq (lines : List Text) : (c.sortUniq lines).Nodup :=
  (c.pairwise_sortUniq lines).imp And.right

end Collation

end TdvfFuzz.Foundation
