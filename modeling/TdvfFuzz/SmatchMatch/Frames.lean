import TdvfFuzz.SmatchMatch.LineMatcher
import TdvfFuzz.Smatcher.Blocks
import TdvfFuzz.Smatcher.Listing

/-!
# The listing of `eu-addr2line`

A frame is printed on one line, behind its address or as inlined at the address
before.  The column is printed where it is known.
-/

namespace TdvfFuzz.SmatchMatch

open TdvfFuzz.Foundation
open TdvfFuzz.Smatcher

def isLowerHex (c : Char) : Bool := c.isDigit || ('a' ≤ c && c ≤ 'f')

structure Frame (word : WordClass) where
  address : Option Text
  func : Text
  path : Text
  line : Text
  column : Option Text
  address_ne_nil : ∀ a ∈ address, a ≠ []
  address_digits : ∀ a ∈ address, ∀ c ∈ a, isLowerHex c = true
  func_ne_nil : func ≠ []
  func_chars : ∀ c ∈ func, isSpace c = false ∧ c ≠ ':'
  path_ne_nil : path ≠ []
  path_chars : ∀ c ∈ path, word.isPathChar c = true ∧ isSpace c = false
  line_ne_nil : line ≠ []
  digits : ∀ c ∈ line, isDecimal c = true
  column_ne_nil : ∀ n ∈ column, n ≠ []
  column_digits : ∀ n ∈ column, ∀ c ∈ n, isDecimal c = true

namespace Frame

variable {word : WordClass}

def head (frame : Frame word) : Text :=
  match frame.address with
  | some address => "0x".toList ++ address ++ ": ".toList
  | none => " (inlined by) ".toList

def location (frame : Frame word) : Text := frame.path ++ ':' :: frame.line

/-- `:column` -/
def tail (frame : Frame word) : Text := (frame.column.map (':' :: ·)).getD []

def text (frame : Frame word) : Text :=
  frame.head ++ (frame.func ++ " at ".toList ++ (frame.location ++ frame.tail))

def lino (frame : Frame word) : Text :=
  if frame.column.isSome then frame.location else frame.path

def number (frame : Frame word) : Text := frame.column.getD frame.line

end Frame

def listing {word : WordClass} (frames : List (Frame word)) : Text :=
  frames.flatMap fun frame => frame.text ++ ['\n']

/-! ## What the patterns match -/

/-- `func at lino:number` -/
def place (func lino number : Text) : Text := func ++ " at ".toList ++ (lino ++ ':' :: number)

structure IsPlace (func lino number : Text) : Prop where
  func_words : ∀ c ∈ func, notSpace c = true
  func_ne_nil : func ≠ []
  lino_words : ∀ c ∈ lino, notSpace c = true
  lino_ne_nil : lino ≠ []
  number_digits : ∀ c ∈ number, isDecimal c = true
  number_ne_nil : number ≠ []

theorem framePattern_accepts {before : Option Char} {w rest : Text} {groups : List Text} :
    framePattern.Accepts before w rest groups ↔
      ∃ func lino number, w = place func lino number ∧ groups = [func, lino] ∧
        IsPlace func lino number ∧ (rest = [] ∨ rest.head? = some '\n') := by
  constructor
  · rintro ⟨func, w₂, _, _, rfl, rfl, ⟨_, ⟨hfunc, hfuncLength, rfl⟩, rfl⟩,
      sep, w₃, _, _, rfl, rfl, hsep,
      lino, w₄, _, _, rfl, rfl, ⟨_, ⟨hlino, hlinoLength, rfl⟩, rfl⟩,
      colon, w₅, _, _, rfl, rfl, ⟨⟨c, rfl, hc⟩, rfl⟩,
      number, _, _, _, rfl, rfl, ⟨hnumber, hnumberLength, rfl⟩, rfl, rfl, hend⟩
    obtain ⟨rfl, rfl⟩ := Regex.accepts_lit.mp hsep
    obtain rfl : c = ':' := by simpa using hc
    exact ⟨func, lino, number, by simp [place], by simp,
      ⟨hfunc, List.ne_nil_of_length_pos hfuncLength, hlino, List.ne_nil_of_length_pos hlinoLength,
        hnumber, List.ne_nil_of_length_pos hnumberLength⟩, hend⟩
  · rintro ⟨func, lino, number, rfl, rfl, h, hend⟩
    refine ⟨func, " at ".toList ++ (lino ++ ':' :: number), [func], [lino], by simp [place], rfl,
      ⟨[], ⟨h.func_words, List.length_pos_of_ne_nil h.func_ne_nil, rfl⟩, rfl⟩,
      " at ".toList, lino ++ ':' :: number, [], [lino], rfl, rfl,
      Regex.accepts_lit.mpr ⟨rfl, rfl⟩,
      lino, ':' :: number, [lino], [], rfl, rfl,
      ⟨[], ⟨h.lino_words, List.length_pos_of_ne_nil h.lino_ne_nil, rfl⟩, rfl⟩,
      [':'], number, [], [], rfl, rfl, ⟨⟨_, rfl, by simp⟩, rfl⟩,
      number, [], [], [], by simp, rfl,
      ⟨h.number_digits, List.length_pos_of_ne_nil h.number_ne_nil, rfl⟩, rfl, rfl, hend⟩

theorem place_inj {func lino number func' lino' number' : Text}
    (h : IsPlace func lino number) (h' : IsPlace func' lino' number')
    (heq : place func lino number = place func' lino' number') :
    func = func' ∧ lino = lino' ∧ number = number' := by
  have hat : " at ".toList = ' ' :: ['a', 't', ' '] := by decide
  have hcolon : ∀ {number : Text}, (∀ c ∈ number, isDecimal c = true) → ':' ∉ number :=
    fun hnumber hmem => absurd (hnumber ':' hmem) (by decide)
  simp only [place, hat, List.append_assoc, List.cons_append, List.nil_append] at heq
  obtain ⟨rfl, -, heq⟩ := run_unique h.func_words h'.func_words (by decide) (by decide) heq
  simp only [List.cons.injEq, true_and] at heq
  obtain ⟨rfl, rfl⟩ := last_unique (hcolon h.number_digits) (hcolon h'.number_digits) heq
  exact ⟨rfl, rfl, rfl⟩

theorem addressPattern_accepts {before : Option Char} {w rest : Text} {groups : List Text} :
    addressPattern.Accepts before w rest groups ↔
      ∃ address func lino number,
        w = "0x".toList ++ address ++ ": ".toList ++ place func lino number ∧
        groups = [address, func, lino] ∧ (∀ c ∈ address, isHexClass c = true) ∧ address ≠ [] ∧
        IsPlace func lino number ∧ (rest = [] ∨ rest.head? = some '\n') := by
  constructor
  · rintro ⟨front, w₂, _, _, rfl, rfl, hfront,
      address, w₃, _, _, rfl, rfl, ⟨_, ⟨haddress, hlength, rfl⟩, rfl⟩,
      sep, w₄, _, _, rfl, rfl, hsep, hframe⟩
    obtain ⟨rfl, rfl⟩ := Regex.accepts_lit.mp hfront
    obtain ⟨rfl, rfl⟩ := Regex.accepts_lit.mp hsep
    obtain ⟨func, lino, number, rfl, rfl, hplace, hend⟩ := framePattern_accepts.mp hframe
    exact ⟨address, func, lino, number, by simp, rfl, haddress,
      List.ne_nil_of_length_pos hlength, hplace, hend⟩
  · rintro ⟨address, func, lino, number, rfl, rfl, haddress, hne, hplace, hend⟩
    exact ⟨"0x".toList, address ++ (": ".toList ++ place func lino number), [], _, by simp, rfl,
      Regex.accepts_lit.mpr ⟨rfl, rfl⟩,
      address, ": ".toList ++ place func lino number, [address], _, rfl, rfl,
      ⟨[], ⟨haddress, List.length_pos_of_ne_nil hne, rfl⟩, rfl⟩,
      ": ".toList, place func lino number, [], _, rfl, rfl, Regex.accepts_lit.mpr ⟨rfl, rfl⟩,
      framePattern_accepts.mpr ⟨func, lino, number, rfl, rfl, hplace, hend⟩⟩

theorem inlinedPattern_accepts {before : Option Char} {w rest : Text} {groups : List Text} :
    inlinedPattern.Accepts before w rest groups ↔
      ∃ func lino number, w = " (inlined by) ".toList ++ place func lino number ∧
        groups = [func, lino] ∧ IsPlace func lino number ∧
        (rest = [] ∨ rest.head? = some '\n') := by
  constructor
  · rintro ⟨front, w₂, _, _, rfl, rfl, hfront, hframe⟩
    obtain ⟨rfl, rfl⟩ := Regex.accepts_lit.mp hfront
    obtain ⟨func, lino, number, rfl, rfl, hplace, hend⟩ := framePattern_accepts.mp hframe
    exact ⟨func, lino, number, rfl, rfl, hplace, hend⟩
  · rintro ⟨func, lino, number, rfl, rfl, hplace, hend⟩
    exact ⟨" (inlined by) ".toList, place func lino number, [], _, rfl, rfl,
      Regex.accepts_lit.mpr ⟨rfl, rfl⟩,
      framePattern_accepts.mpr ⟨func, lino, number, rfl, rfl, hplace, hend⟩⟩

/-! ## Reading a frame -/

namespace Frame

variable {word : WordClass}

theorem text_eq (frame : Frame word) :
    frame.text = frame.head ++ place frame.func frame.lino frame.number := by
  cases hcolumn : frame.column <;>
    simp [text, place, lino, number, location, tail, hcolumn]

theorem isPlace (frame : Frame word) : IsPlace frame.func frame.lino frame.number := by
  have hpath : ∀ c ∈ frame.path, notSpace c = true := fun c hc => by
    simp [notSpace, (frame.path_chars c hc).2]
  have hlocation : ∀ c ∈ frame.location, notSpace c = true := run_location hpath frame.digits
  have hfunc : ∀ c ∈ frame.func, notSpace c = true := fun c hc => by
    simp [notSpace, (frame.func_chars c hc).1]
  cases hcolumn : frame.column with
  | none =>
      simp only [lino, number, hcolumn, Option.isSome_none, Bool.false_eq_true, if_false,
        Option.getD_none]
      exact ⟨hfunc, frame.func_ne_nil, hpath, frame.path_ne_nil, frame.digits, frame.line_ne_nil⟩
  | some column =>
      simp only [lino, number, hcolumn, Option.isSome_some, if_true, Option.getD_some]
      exact ⟨hfunc, frame.func_ne_nil, hlocation, by simp [location],
        frame.column_digits column hcolumn, frame.column_ne_nil column hcolumn⟩

theorem colon_not_mem_path (frame : Frame word) : ':' ∉ frame.path := fun h => by
  simpa [isPathChar_colon] using (frame.path_chars ':' h).1

theorem tail_chars (frame : Frame word) : ∀ c ∈ frame.line ++ frame.tail, notSpace c = true := by
  intro c hc
  rcases List.mem_append.mp hc with hc | hc
  · exact notSpace_of_isDecimal (frame.digits c hc)
  · cases hcolumn : frame.column with
    | none => simp [tail, hcolumn] at hc
    | some column =>
        simp only [tail, hcolumn, Option.map_some, Option.getD_some, List.mem_cons] at hc
        rcases hc with rfl | hc
        · decide
        · exact notSpace_of_isDecimal (frame.column_digits column hcolumn c hc)

theorem range_of_isLowerHex {c : Char} (h : isLowerHex c = true) :
    48 ≤ c.toNat ∧ c.toNat ≤ 57 ∨ 97 ≤ c.toNat ∧ c.toNat ≤ 102 := by
  simpa [isLowerHex, Char.isDigit, Char.le_def, UInt32.le_iff_toNat_le] using h

theorem isSpace_of_isLowerHex {c : Char} (h : isLowerHex c = true) : isSpace c = false := by
  have := range_of_isLowerHex h
  simp only [isSpace, Bool.or_eq_false_iff, Bool.and_eq_false_iff, decide_eq_false_iff_not,
    beq_eq_false_iff_ne]
  omega

theorem chars (frame : Frame word) : ∀ c ∈ frame.text, c = ' ' ∨ isSpace c = false := by
  have hwords : ∀ {w : Text}, (∀ c ∈ w, notSpace c = true) →
      ∀ c ∈ w, c = ' ' ∨ isSpace c = false := fun h c hc => .inr (by simpa [notSpace] using h c hc)
  have hhead : ∀ c ∈ frame.head, c = ' ' ∨ isSpace c = false := by
    cases haddress : frame.address with
    | none =>
        simp only [head, haddress]
        decide
    | some address =>
        simp only [head, haddress, List.forall_mem_append]
        exact ⟨⟨by decide, fun c hc =>
          .inr (isSpace_of_isLowerHex (frame.address_digits address haddress c hc))⟩, by decide⟩
  have h := frame.isPlace
  rw [text_eq, place]
  simp only [List.forall_mem_append, List.forall_mem_cons]
  exact ⟨hhead, ⟨hwords h.func_words, by decide⟩, hwords h.lino_words, by decide,
    hwords fun c hc => notSpace_of_isDecimal (h.number_digits c hc)⟩

theorem newline_not_mem (frame : Frame word) : '\n' ∉ frame.text := by
  intro h
  rcases frame.chars '\n' h with h | h <;> simp [isSpace] at h

theorem end_of_text (frame : Frame word) {w rest : Text} (hw : w ++ rest = frame.text)
    (hend : rest = [] ∨ rest.head? = some '\n') : rest = [] :=
  hend.resolve_right fun hhead =>
    frame.newline_not_mem (hw ▸ List.mem_append_right w (List.mem_of_mem_head? hhead))

theorem search_address (frame : Frame word) {address : Text} (h : frame.address = some address) :
    addressPattern.search frame.text =
      some ⟨frame.text, [address, frame.func, frame.lino], []⟩ := by
  have hx : "0x".toList = ['0', 'x'] := by decide
  have hsep : ": ".toList = ':' :: [' '] := by decide
  have hcolon : isHexClass ':' = false := by decide +kernel
  have hdigits : ∀ c ∈ address, isHexClass c = true := fun c hc => by
    have := frame.address_digits address h c hc
    simp only [isLowerHex, Bool.or_eq_true] at this
    simp only [isHexClass, Bool.or_eq_true]
    exact this.imp_left .inl
  have htext : frame.text = "0x".toList ++ address ++ ": ".toList ++
      place frame.func frame.lino frame.number := by
    rw [text_eq, head, h]
  refine Regex.search_of_unique (by simp [htext, hx]) (addressPattern_accepts.mpr
    ⟨address, _, _, _, htext, rfl, hdigits, frame.address_ne_nil address h, frame.isPlace,
      .inl rfl⟩) ?_
  intro w' rest' groups' hw haccepts
  obtain ⟨address', func', lino', number', rfl, rfl, hdigits', -, hplace, hend⟩ :=
    addressPattern_accepts.mp haccepts
  obtain rfl := frame.end_of_text hw hend
  simp only [htext, hx, hsep, List.append_assoc, List.cons_append, List.nil_append,
    List.append_nil, List.cons.injEq, true_and] at hw
  obtain ⟨rfl, -, hw⟩ := run_unique hdigits' hdigits hcolon hcolon hw
  obtain ⟨rfl, rfl, -⟩ := place_inj hplace frame.isPlace (List.cons.inj hw).2
  exact ⟨rfl, rfl⟩

theorem search_address_of_inlined (frame : Frame word) (h : frame.address = none) :
    addressPattern.search frame.text = none := by
  by_contra hsearch
  obtain ⟨m, hm⟩ := Option.ne_none_iff_exists'.mp hsearch
  obtain ⟨pre, last, hs, haccepts⟩ := Regex.mem_findall (List.mem_of_mem_head? hm)
  obtain ⟨address, func, lino, number, hw, -⟩ := addressPattern_accepts.mp haccepts
  have hat : ':' ∉ " at ".toList := by decide
  have hinlined : ':' ∉ " (inlined by) ".toList := by decide
  have hsep : ": ".toList = ':' :: [' '] := by decide
  have hfront : ':' ∉ frame.head ++ frame.func ++ " at ".toList ++ frame.path := by
    have hfunc : ':' ∉ frame.func := fun hmem => (frame.func_chars ':' hmem).2 rfl
    simp only [head, h, List.mem_append, not_or]
    exact ⟨⟨⟨hinlined, hfunc⟩, hat⟩, frame.colon_not_mem_path⟩
  have htext : frame.head ++ frame.func ++ " at ".toList ++ frame.path ++
        ':' :: (frame.line ++ frame.tail) =
      (pre ++ "0x".toList ++ address) ++ ':' :: (' ' :: (place func lino number ++ m.rest)) := by
    have hs' : frame.text = pre ++ (m.consumed ++ m.rest) := hs
    rw [hw, hsep] at hs'
    simpa [text, location] using hs'
  have hblank := frame.tail_chars ' ' (mem_of_append_cons_eq hfront (by simp) htext)
  exact absurd hblank (by decide)

theorem search_inlined (frame : Frame word) (h : frame.address = none) :
    inlinedPattern.search frame.text = some ⟨frame.text, [frame.func, frame.lino], []⟩ := by
  have htext : frame.text = " (inlined by) ".toList ++
      place frame.func frame.lino frame.number := by
    rw [text_eq, head, h]
  refine Regex.search_of_unique (by simp [htext]) (inlinedPattern_accepts.mpr
    ⟨_, _, _, htext, rfl, frame.isPlace, .inl rfl⟩) ?_
  intro w' rest' groups' hw haccepts
  obtain ⟨func', lino', number', rfl, rfl, hplace, hend⟩ := inlinedPattern_accepts.mp haccepts
  obtain rfl := frame.end_of_text hw hend
  rw [List.append_nil, htext] at hw
  obtain ⟨rfl, rfl, -⟩ := place_inj hplace frame.isPlace (List.append_cancel_left hw)
  exact ⟨rfl, rfl⟩

theorem readLine_text (frame : Frame word) (s : Addr2line) :
    ∃ addr, s.readLine frame.text = .ok (s.addFrame addr frame.func frame.lino) := by
  cases haddress : frame.address with
  | none =>
      refine ⟨s.addr, ?_⟩
      simp [Addr2line.readLine, frame.search_address_of_inlined haddress,
        frame.search_inlined haddress]
  | some address =>
      have hdigits : ∀ c ∈ address, hexDigit c ≠ none := fun c hc => by
        have := range_of_isLowerHex (frame.address_digits address haddress c hc)
        unfold hexDigit
        grind
      obtain ⟨value, hvalue⟩ := exists_hexValue hdigits 0
      refine ⟨value, ?_⟩
      simp [Addr2line.readLine, frame.search_address haddress,
        int16_of_hexValue (frame.address_ne_nil address haddress) hvalue]

end Frame

/-! ## Reading the listing -/

variable {word : WordClass}

theorem splitlines_listing (frames : List (Frame word)) :
    splitlines (listing frames) = frames.map Frame.text := by
  have hlisting : listing frames =
      unlines (frames.map fun frame => (frame.text, LineEnd.newline)) [] := by
    simp [listing, unlines, List.flatMap_map, LineEnd.text]
  rw [splitlines, hlisting, linesAt_unlines (by decide) _ (by simp)]
  · simp [Function.comp_def]
  · simp only [List.forall_mem_map]
    exact fun frame _ c hc => not_lineBreak (frame.chars c hc)

theorem line2addr_foldlM (frames : List (Frame word)) (s : Addr2line) :
    ∃ s', (frames.map Frame.text).foldlM Addr2line.readLine s = .ok s' ∧
      ∀ l, s'.line2addr.getD l [] ≠ [] ↔
        s.line2addr.getD l [] ≠ [] ∨ ∃ frame ∈ frames, frame.lino = l := by
  induction frames generalizing s with
  | nil => exact ⟨s, rfl, by simp⟩
  | cons frame frames ih =>
      obtain ⟨addr, hline⟩ := frame.readLine_text s
      obtain ⟨s', hfold, hkeys⟩ := ih (s.addFrame addr frame.func frame.lino)
      refine ⟨s', by simp [hline, hfold], fun l => ?_⟩
      rw [hkeys, List.exists_mem_cons_iff, ← or_assoc]
      apply or_congr_left
      rw [Addr2line.addFrame, Dict.getD_set]
      by_cases hl : l = frame.lino
      · simp [hl]
      · simp [hl, Ne.symm hl]

theorem Frame.scan_head (frame : Frame word) (before : Option Char) (v : Text) :
    Regex.scanFrom (coveragePattern word) 0 before
        (frame.head ++ (frame.func ++ " at ".toList ++ v)) =
      Regex.scanFrom (coveragePattern word) 0 (some ' ') v := by
  have hblank : word.isPathChar ' ' = false :=
    isPathChar_eq_false (by decide) (by decide) (by decide)
  have hfunc : ':' ∉ frame.func := fun h => (frame.func_chars ':' h).2 rfl
  have hat : " at ".toList = [' ', 'a', 't'] ++ [' '] := by decide
  cases haddress : frame.address with
  | none =>
      have hinlined : ':' ∉ " (inlined by) ".toList := by decide
      have hskip := coverage_skip word (v := v) before
        (w := " (inlined by) ".toList ++ frame.func ++ [' ', 'a', 't'])
        (by simp only [List.mem_append, not_or]; exact ⟨⟨hinlined, hfunc⟩, by decide⟩)
        hblank (by simp)
      rw [head, haddress, hat]
      simpa using hskip
  | some address =>
      have hx : "0x".toList = ['0', 'x'] := by decide
      have hsep : ": ".toList = ':' :: [' '] := by decide
      have hcolon : ':' ∉ "0x".toList ++ address := by
        rw [hx, List.mem_append, not_or]
        refine ⟨by decide, fun h => ?_⟩
        have := range_of_isLowerHex (frame.address_digits address haddress ':' h)
        simp at this
      have hskip := coverage_skip word (e := ':') before hcolon isPathChar_colon
        (v := ' ' :: (frame.func ++ [' ', 'a', 't']) ++ ' ' :: v)
        (by simp [isDecimal, Char.isDigit])
      have hskip' := coverage_skip word (v := v) (some ':')
        (w := ' ' :: (frame.func ++ [' ', 'a', 't']))
        (by simp only [List.mem_cons, List.mem_append, not_or]; exact ⟨by decide, hfunc, by decide⟩)
        hblank (by simp)
      rw [head, haddress, hat, hsep]
      rw [← hskip', ← hskip]
      simp

theorem Frame.scan_tail (frame : Frame word) (before : Option Char) (v : Text) :
    Regex.scanFrom (coveragePattern word) 0 before (frame.tail ++ '\n' :: v) =
      Regex.scanFrom (coveragePattern word) 0 (some '\n') v := by
  cases hcolumn : frame.column with
  | none => simpa [tail, hcolumn] using scanFrom_other before v isPathChar_newline
  | some column =>
      have hdigits : ':' ∉ column := fun h =>
        absurd (frame.column_digits column hcolumn ':' h) (by decide)
      simp only [tail, hcolumn, Option.map_some, Option.getD_some, List.cons_append]
      rw [scanFrom_other _ _ isPathChar_colon,
        coverage_skip _ _ hdigits isPathChar_newline (by simp)]

/-- `smatcher` finds the location of every frame, with or without a column. -/
theorem scan_listing (frames : List (Frame word)) (before : Option Char) :
    (Regex.scanFrom (coveragePattern word) 0 before (listing frames)).map Match.consumed =
      frames.map Frame.location := by
  induction frames generalizing before with
  | nil => rfl
  | cons frame frames ih =>
      have htext : listing (frame :: frames) =
          frame.head ++ (frame.func ++ " at ".toList ++
            (frame.location ++ (frame.tail ++ '\n' :: listing frames))) := by
        simp [listing, Frame.text]
      have hrest : ∀ c ∈ (frame.tail ++ '\n' :: listing frames).head?, isDecimal c = false := by
        cases hcolumn : frame.column <;>
          simp [Frame.tail, hcolumn, isDecimal, Char.isDigit]
      have hfirst := first_line word (some ' ') (frame.tail ++ '\n' :: listing frames)
        (fun c hc => (frame.path_chars c hc).1) frame.path_ne_nil frame.digits frame.line_ne_nil
        hrest
      have hlocation : frame.path ++ ':' :: (frame.line ++ (frame.tail ++ '\n' :: listing frames)) =
          frame.location ++ (frame.tail ++ '\n' :: listing frames) := by
        simp [Frame.location]
      rw [hlocation] at hfirst
      rw [htext, frame.scan_head, Regex.scanFrom_of_first hfirst (by simp [Frame.location]),
        List.map_cons, frame.scan_tail, ih]
      rfl

theorem parseLineCoverage_listing (frames : List (Frame word)) :
    parseLineCoverage word (listing frames) =
      (frames.map fun frame => locationKey frame.location).toFinset := by
  have hmap := congrArg (List.map locationKey) (scan_listing frames none)
  simp only [List.map_map, Function.comp_def] at hmap
  rw [parseLineCoverage, Regex.findall, hmap]

end TdvfFuzz.SmatchMatch
