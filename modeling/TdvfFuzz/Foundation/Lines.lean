import TdvfFuzz.Foundation.Text

/-!
# Lines

Languages differ in the characters that end a line.  All take a carriage return
and the newline behind it as one end, and none sees a line behind the last end.
-/

namespace TdvfFuzz.Foundation

def consLine (c : Char) : List Text → List Text
  | [] => [[c]]
  | line :: rest => (c :: line) :: rest

def linesAt (isBreak : Char → Bool) : Text → List Text
  | [] => []
  | '\r' :: '\n' :: s => [] :: linesAt isBreak s
  | c :: s =>
      if isBreak c then [] :: linesAt isBreak s else consLine c (linesAt isBreak s)

/-- The characters that end a line for `str.splitlines()`. -/
def isLineBreak (c : Char) : Bool :=
  let n := c.toNat
  (10 ≤ n && n ≤ 13) || (28 ≤ n && n ≤ 30) || n == 0x85 || n == 0x2028 || n == 0x2029

/-- `str.splitlines()` -/
def splitlines : Text → List Text := linesAt isLineBreak

theorem not_lineBreak {c : Char} (h : c = ' ' ∨ isSpace c = false) :
    c ≠ '\r' ∧ isLineBreak c = false := by
  rcases h with rfl | h
  · decide
  · have hreturn : c ≠ '\r' := by
      rintro rfl
      simp [isSpace] at h
    simp only [isSpace, Bool.or_eq_false_iff, Bool.and_eq_false_iff, decide_eq_false_iff_not,
      beq_eq_false_iff_ne] at h
    simp only [isLineBreak, Bool.or_eq_false_iff, Bool.and_eq_false_iff, decide_eq_false_iff_not,
      beq_eq_false_iff_ne]
    exact ⟨hreturn, by omega⟩

inductive LineEnd where
  | newline
  | carriageReturn
  deriving DecidableEq, Repr

def LineEnd.text : LineEnd → Text
  | .newline => ['\n']
  | .carriageReturn => ['\r', '\n']

def unlines (lines : List (Text × LineEnd)) (last : Text) : Text :=
  lines.flatMap (fun line => line.1 ++ line.2.text) ++ last

section

variable {isBreak : Char → Bool}

theorem linesAt_cons {c : Char} (s : Text) (hreturn : c ≠ '\r') (hbreak : isBreak c = false) :
    linesAt isBreak (c :: s) = consLine c (linesAt isBreak s) := by
  rw [linesAt, if_neg (by simp [hbreak])]
  rintro s rfl
  contradiction

theorem linesAt_lineEnd (e : LineEnd) (s : Text) (hnewline : isBreak '\n' = true) :
    linesAt isBreak (e.text ++ s) = [] :: linesAt isBreak s := by
  cases e with
  | newline => simp [LineEnd.text, linesAt, hnewline]
  | carriageReturn => simp [LineEnd.text, linesAt]

theorem linesAt_append {line : Text} (e : LineEnd) (s : Text)
    (hnewline : isBreak '\n' = true) (hline : ∀ c ∈ line, c ≠ '\r' ∧ isBreak c = false) :
    linesAt isBreak (line ++ e.text ++ s) = line :: linesAt isBreak s := by
  induction line with
  | nil => exact linesAt_lineEnd e s hnewline
  | cons c line ih =>
      obtain ⟨⟨hreturn, hbreak⟩, hline⟩ := List.forall_mem_cons.mp hline
      rw [List.cons_append, List.cons_append, linesAt_cons _ hreturn hbreak, ih hline]
      rfl

theorem linesAt_of_not_break {line : Text} (hne : line ≠ [])
    (hline : ∀ c ∈ line, c ≠ '\r' ∧ isBreak c = false) :
    linesAt isBreak line = [line] := by
  induction line with
  | nil => contradiction
  | cons c line ih =>
      obtain ⟨⟨hreturn, hbreak⟩, hline⟩ := List.forall_mem_cons.mp hline
      rw [linesAt_cons _ hreturn hbreak]
      by_cases hrest : line = []
      · subst hrest
        rfl
      · rw [ih hrest hline]
        rfl

theorem linesAt_of_not_newline {line : Text} (hne : line ≠ [])
    (hline : ∀ c ∈ line, c ≠ '\n' ∧ isBreak c = false) :
    linesAt isBreak line = [line] := by
  induction line with
  | nil => contradiction
  | cons c line ih =>
      obtain ⟨⟨-, hbreak⟩, hline⟩ := List.forall_mem_cons.mp hline
      have hcons : linesAt isBreak (c :: line) = consLine c (linesAt isBreak line) := by
        rw [linesAt, if_neg (by simp [hbreak])]
        rintro s - rfl
        exact (hline '\n' (by simp)).1 rfl
      rw [hcons]
      by_cases hrest : line = []
      · subst hrest
        rfl
      · rw [ih hrest hline]
        rfl

theorem linesAt_unlines_append {lines : List (Text × LineEnd)} (last : Text)
    (hnewline : isBreak '\n' = true)
    (hlines : ∀ line ∈ lines, ∀ c ∈ line.1, c ≠ '\r' ∧ isBreak c = false) :
    linesAt isBreak (unlines lines last) = lines.map Prod.fst ++ linesAt isBreak last := by
  induction lines with
  | nil => rfl
  | cons line lines ih =>
      obtain ⟨hline, hlines⟩ := List.forall_mem_cons.mp hlines
      have := linesAt_append line.2 (unlines lines last) hnewline hline
      simp only [unlines, List.flatMap_cons, List.append_assoc] at this ih ⊢
      rw [this, ih hlines]
      rfl

theorem linesAt_unlines {lines : List (Text × LineEnd)} {last : Text}
    (hnewline : isBreak '\n' = true)
    (hlines : ∀ line ∈ lines, ∀ c ∈ line.1, c ≠ '\r' ∧ isBreak c = false)
    (hlast : ∀ c ∈ last, c ≠ '\r' ∧ isBreak c = false) :
    linesAt isBreak (unlines lines last) =
      lines.map Prod.fst ++ if last = [] then [] else [last] := by
  rw [linesAt_unlines_append last hnewline hlines]
  split
  case isTrue h => simp [h, linesAt]
  case isFalse h => rw [linesAt_of_not_break h hlast]

theorem exists_unlines_concat (lines : List (Text × LineEnd)) (line : Text × LineEnd)
    (last : Text) : ∃ front, unlines (lines ++ [line]) last = front ++ '\n' :: last ∧
      (front = unlines lines line.1 ∨ front = unlines lines (line.1 ++ ['\r'])) := by
  obtain ⟨text, ending⟩ := line
  cases ending with
  | newline => exact ⟨_, by simp [unlines, LineEnd.text], .inl rfl⟩
  | carriageReturn => exact ⟨_, by simp [unlines, LineEnd.text], .inr rfl⟩

theorem count_newline_unlines {lines : List (Text × LineEnd)} {last : Text}
    (hlines : ∀ line ∈ lines, '\n' ∉ line.1) (hlast : '\n' ∉ last) :
    (unlines lines last).count '\n' = lines.length := by
  induction lines using List.reverseRecOn generalizing last with
  | nil => simpa [unlines, List.count_eq_zero] using hlast
  | append_singleton lines line ih =>
      have hfront : ∀ line ∈ lines, '\n' ∉ line.1 := fun line hline =>
        hlines line (List.mem_append_left _ hline)
      have hline : '\n' ∉ line.1 := hlines line (by simp)
      obtain ⟨front, hunlines, rfl | rfl⟩ := exists_unlines_concat lines line last
      · rw [hunlines]
        simp [ih hfront hline, List.count_eq_zero_of_not_mem hlast]
      · rw [hunlines]
        have hreturn : '\n' ∉ line.1 ++ ['\r'] := by simpa using hline
        simp [ih hfront hreturn, List.count_eq_zero_of_not_mem hlast]

theorem rtakeWhile_unlines (lines : List (Text × LineEnd)) {last : Text} (hlast : '\n' ∉ last) :
    (unlines lines last).rtakeWhile (· != '\n') = last := by
  have hkept : ∀ c ∈ last, (c != '\n') = true := by
    intro c hc
    rw [bne_iff_ne]
    rintro rfl
    exact hlast hc
  induction lines using List.reverseRecOn with
  | nil => simpa [unlines, List.rtakeWhile_eq_self_iff] using hkept
  | append_singleton lines line _ =>
      obtain ⟨front, hunlines, -⟩ := exists_unlines_concat lines line last
      rw [hunlines]
      exact rtakeWhile_append_cons front (by simp) hkept

theorem exists_cut {lines : List (Text × LineEnd)} {last p : Text} (h : p <+: unlines lines last) :
    (∃ cut, p = unlines lines cut ∧ cut <+: last) ∨
      ∃ done line rest cut, lines = done ++ line :: rest ∧ p = unlines done cut ∧
        (cut <+: line.1 ∨ cut = line.1 ++ ['\r']) := by
  induction lines generalizing p with
  | nil => exact .inl ⟨p, rfl, h⟩
  | cons line lines ih =>
      have hcons : ∀ cut, unlines (line :: lines) cut =
          line.1 ++ line.2.text ++ unlines lines cut := by
        simp [unlines]
      rw [hcons] at h
      have hpassed : line.1 ++ line.2.text <+: p ∨
          (p <+: line.1 ∨ p = line.1 ++ ['\r']) := by
        rcases List.prefix_or_prefix_of_prefix h (List.prefix_append _ _) with hp | hp
        · obtain ⟨text, ending⟩ := line
          cases ending with
          | newline =>
              rcases List.prefix_concat_iff.mp hp with rfl | hp
              · exact .inl (List.prefix_refl _)
              · exact .inr (.inl hp)
          | carriageReturn =>
              have hsplit : text ++ LineEnd.carriageReturn.text = text ++ ['\r'] ++ ['\n'] := by
                simp [LineEnd.text]
              rw [hsplit] at hp
              rcases List.prefix_concat_iff.mp hp with rfl | hp
              · exact .inl (by rw [hsplit])
              · exact .inr ((List.prefix_concat_iff.mp hp).symm)
        · exact .inl hp
      rcases hpassed with ⟨p, rfl⟩ | hp
      · rcases ih ((List.prefix_append_right_inj _).mp h) with
          ⟨cut, rfl, hcut⟩ | ⟨done, line', rest, cut, rfl, rfl, hcut⟩
        · exact .inl ⟨cut, (hcons cut).symm, hcut⟩
        · exact .inr ⟨line :: done, line', rest, cut, rfl, by simp [unlines], hcut⟩
      · exact .inr ⟨[], line, lines, p, rfl, rfl, hp⟩

theorem linesAt_ne_nil {s : Text} (h : s ≠ []) : linesAt isBreak s ≠ [] := by
  cases s with
  | nil => contradiction
  | cons c s =>
      unfold linesAt
      split
      · contradiction
      · simp
      · split
        · simp
        · cases linesAt isBreak _ <;> simp [consLine]

theorem not_crlf_append {c : Char} {s : Text} (hreturn : ∀ s', c = '\r' → s = '\n' :: s' → False)
    (hc : ¬ (c = '\r' ∧ s = [])) (t s' : Text) :
    c = '\r' → s ++ '\n' :: t = '\n' :: s' → False := by
  rintro rfl hs
  cases s with
  | nil => exact hc ⟨rfl, rfl⟩
  | cons d s =>
      obtain ⟨rfl, -⟩ := List.cons.inj hs
      exact hreturn s rfl rfl

theorem linesAt_append_newline (u v : Text) (hnewline : isBreak '\n' = true) :
    linesAt isBreak (u ++ '\n' :: v) =
      linesAt isBreak (u ++ ['\n']) ++ linesAt isBreak v := by
  induction u using (linesAt.induct isBreak) with
  | case1 => simp [linesAt, hnewline]
  | case2 s ih => simp [linesAt, ih]
  | case3 c s hreturn hbreak ih =>
      by_cases hc : c = '\r' ∧ s = []
      · obtain ⟨rfl, rfl⟩ := hc
        simp [linesAt]
      · have hcons : ∀ t, linesAt isBreak (c :: (s ++ '\n' :: t)) =
            [] :: linesAt isBreak (s ++ '\n' :: t) := by
          intro t
          rw [linesAt.eq_3 _ c _ (not_crlf_append hreturn hc t), if_pos hbreak]
        rw [List.cons_append, List.cons_append, hcons, hcons, ih, List.cons_append]
  | case4 c s hreturn hbreak ih =>
      by_cases hc : c = '\r' ∧ s = []
      · obtain ⟨rfl, rfl⟩ := hc
        simp [linesAt]
      · have hcons : ∀ t, linesAt isBreak (c :: (s ++ '\n' :: t)) =
            consLine c (linesAt isBreak (s ++ '\n' :: t)) := by
          intro t
          rw [linesAt.eq_3 _ c _ (not_crlf_append hreturn hc t), if_neg hbreak]
        rw [List.cons_append, List.cons_append, hcons, hcons, ih]
        cases hlines : linesAt isBreak (s ++ ['\n']) with
        | nil => exact absurd hlines (linesAt_ne_nil (by simp))
        | cons line rest => rfl

/-- A stretch without line ends lies in one line, and starts it behind a newline. -/
theorem exists_line {w : Text} (v : Text) (hne : w ≠ [])
    (hw : ∀ c ∈ w, c ≠ '\r' ∧ isBreak c = false) :
    ∃ x rest, linesAt isBreak (w ++ v) = (w ++ x) :: rest := by
  induction w with
  | nil => contradiction
  | cons c w ih =>
      obtain ⟨⟨hreturn, hbreak⟩, hw⟩ := List.forall_mem_cons.mp hw
      rw [List.cons_append, linesAt_cons _ hreturn hbreak]
      by_cases hnil : w = []
      · subst hnil
        cases hlines : linesAt isBreak ([] ++ v) with
        | nil => exact ⟨[], [], rfl⟩
        | cons line rest => exact ⟨line, rest, rfl⟩
      · obtain ⟨x, rest, hlines⟩ := ih hnil hw
        exact ⟨x, rest, by rw [hlines]; rfl⟩

end

/-! ## Lines with their ends -/

/-- `readlines()` of a file that is opened with `newline=''`. -/
def readlines : Text → List Text
  | [] => []
  | '\r' :: '\n' :: s => ['\r', '\n'] :: readlines s
  | c :: s => if c = '\n' ∨ c = '\r' then [c] :: readlines s else consLine c (readlines s)

def OneLine (line : Text) : Prop := '\n' ∉ line ∧ '\r' ∉ line

instance : DecidablePred OneLine := fun line =>
  inferInstanceAs (Decidable ('\n' ∉ line ∧ '\r' ∉ line))

theorem OneLine.of_cons {c : Char} {line : Text} (h : OneLine (c :: line)) :
    (c ≠ '\n' ∧ c ≠ '\r') ∧ OneLine line := by
  simp only [OneLine, List.mem_cons, not_or] at h ⊢
  exact ⟨⟨Ne.symm h.1.1, Ne.symm h.2.1⟩, h.1.2, h.2.2⟩

theorem readlines_cons {c : Char} (s : Text) (h : c ≠ '\n' ∧ c ≠ '\r') :
    readlines (c :: s) = consLine c (readlines s) := by
  rw [readlines, if_neg (by simp [h])]
  rintro s rfl
  exact absurd rfl h.2

theorem flatten_readlines (s : Text) : (readlines s).flatten = s := by
  have hcons : ∀ (c : Char) (lines : List Text),
      (consLine c lines).flatten = c :: lines.flatten := by
    intro c lines
    cases lines <;> rfl
  induction s using readlines.induct with
  | case1 => rfl
  | case2 s ih => simp [readlines, ih]
  | case3 c s hreturn hbreak ih =>
      rw [readlines, if_pos hbreak, List.flatten_cons, ih]
      · rfl
      · exact hreturn
  | case4 c s hreturn hbreak ih =>
      rw [readlines, if_neg hbreak, hcons, ih]
      exact hreturn

theorem readlines_append {line : Text} (e : LineEnd) (s : Text) (h : OneLine line) :
    readlines (line ++ e.text ++ s) = (line ++ e.text) :: readlines s := by
  induction line with
  | nil => cases e <;> simp [LineEnd.text, readlines]
  | cons c line ih =>
      obtain ⟨hc, hline⟩ := h.of_cons
      rw [List.cons_append, List.cons_append, readlines_cons _ hc, ih hline]
      rfl

theorem readlines_of_oneLine {line : Text} (hne : line ≠ []) (h : OneLine line) :
    readlines line = [line] := by
  induction line with
  | nil => contradiction
  | cons c line ih =>
      obtain ⟨hc, hline⟩ := h.of_cons
      rw [readlines_cons _ hc]
      by_cases hrest : line = []
      · subst hrest
        rfl
      · rw [ih hrest hline]
        rfl

theorem readlines_unlines {lines : List (Text × LineEnd)} {last : Text}
    (hlines : ∀ line ∈ lines, OneLine line.1) (hlast : OneLine last) :
    readlines (unlines lines last) =
      lines.map (fun line => line.1 ++ line.2.text) ++ if last = [] then [] else [last] := by
  induction lines with
  | nil =>
      split
      case isTrue h => simp [unlines, h, readlines]
      case isFalse h => simpa [unlines] using readlines_of_oneLine h hlast
  | cons line lines ih =>
      obtain ⟨hline, hlines⟩ := List.forall_mem_cons.mp hlines
      have := readlines_append line.2 (unlines lines last) hline
      simp only [unlines, List.flatMap_cons, List.append_assoc] at this ih ⊢
      rw [this, ih hlines]
      simp

end TdvfFuzz.Foundation
