import TdvfFuzz.Foundation.Hex
import TdvfFuzz.Foundation.Python

/-!
# Hexadecimal integers of the scripts

`int(s, 16)` allows white space around the number, a sign, a prefix and single
underscores between digits.  What `%016x` writes is read back.
-/

namespace TdvfFuzz.Foundation

/-- Digits behind a value read so far, with single underscores in front of digits. -/
def underscoredValue : ℕ → Text → Option ℕ
  | value, [] => some value
  | value, '_' :: c :: s =>
      (hexDigit c).bind fun digit => underscoredValue (16 * value + digit) s
  | value, c :: s => (hexDigit c).bind fun digit => underscoredValue (16 * value + digit) s

def splitSign : Text → Bool × Text
  | '-' :: s => (true, s)
  | '+' :: s => (false, s)
  | s => (false, s)

def dropHexPrefix : Text → Text
  | '0' :: 'x' :: '_' :: s | '0' :: 'X' :: '_' :: s => s
  | '0' :: 'x' :: s | '0' :: 'X' :: s => s
  | s => s

/-- The code points of the zeros of the decimal digits beyond ASCII. -/
def decimalZeros : List ℕ :=
  [0x660, 0x6f0, 0x7c0, 0x966, 0x9e6, 0xa66, 0xae6, 0xb66, 0xbe6, 0xc66, 0xce6, 0xd66, 0xde6,
    0xe50, 0xed0, 0xf20, 0x1040, 0x1090, 0x17e0, 0x1810, 0x1946, 0x19d0, 0x1a80, 0x1a90,
    0x1b50, 0x1bb0, 0x1c40, 0x1c50, 0xa620, 0xa8d0, 0xa900, 0xa9d0, 0xa9f0, 0xaa50, 0xabf0,
    0xff10, 0x104a0, 0x10d30, 0x11066, 0x110f0, 0x11136, 0x111d0, 0x112f0, 0x11450, 0x114d0,
    0x11650, 0x116c0, 0x11730, 0x118e0, 0x11950, 0x11c50, 0x11d50, 0x11da0, 0x16a60, 0x16ac0,
    0x16b50, 0x1d7ce, 0x1d7d8, 0x1d7e2, 0x1d7ec, 0x1d7f6, 0x1e140, 0x1e2f0, 0x1e950, 0x1fbf0]

def decimalDigit (c : Char) : Option ℕ :=
  (decimalZeros.find? fun start => start ≤ c.toNat ∧ c.toNat < start + 10).map (c.toNat - ·)

/-- `int` reads white space and digits of any script; nothing else is let through. -/
def toAscii (c : Char) : Char :=
  if c.toNat < 128 then c
  else if isSpace c then ' '
  else ((decimalDigit c).map Nat.digitChar).getD '?'

/-- The white space that C's `isspace` knows. -/
def isAsciiSpace (c : Char) : Bool :=
  (9 ≤ c.toNat && c.toNat ≤ 13) || c == ' '

/-- `int(s, 16)` -/
def int16 (s : Text) : Except PyError ℤ :=
  let (negative, rest) := splitSign (stripBy isAsciiSpace (s.map toAscii))
  let digits := dropHexPrefix rest
  if digits = [] ∨ digits.head? = some '_' then .error .valueError
  else
    match underscoredValue 0 digits with
    | none => .error .valueError
    | some value => .ok (if negative then -value else value)

/-- `"%016x" % n` -/
def format016x (n : ℤ) : Text :=
  let digits := Nat.toDigits 16 n.natAbs
  if n < 0 then '-' :: digits.leftpad 15 '0' else digits.leftpad 16 '0'

/-! ## Plain digits -/

theorem underscoredValue_eq {value : ℕ} {s : Text} (h : '_' ∉ s) :
    underscoredValue value s = hexValue value s := by
  induction s generalizing value with
  | nil => rfl
  | cons c s ih =>
      simp only [List.mem_cons, not_or] at h
      rw [underscoredValue.eq_3 _ _ _ (by rintro d s rfl; simp at h), hexValue]
      simp only [ih h.2]

theorem dropHexPrefix_eq_self {s : Text} (h : 'x' ∉ s) (h' : 'X' ∉ s) :
    dropHexPrefix s = s := by
  unfold dropHexPrefix
  split <;> simp_all

theorem splitSign_eq_self {s : Text} (h : '-' ∉ s) (h' : '+' ∉ s) :
    splitSign s = (false, s) := by
  unfold splitSign
  split <;> simp_all

theorem ascii_of_hexValue {value result : ℕ} {s : Text}
    (h : hexValue value s = some result) :
    ∀ c ∈ s, toAscii c = c ∧ isAsciiSpace c = false := by
  intro c hc
  have := range_of_hexValue h hc
  constructor
  · rw [toAscii, if_pos (by omega)]
  · have hblank : c ≠ ' ' := by
      rintro rfl
      simp at this
    simp only [isAsciiSpace, Bool.or_eq_false_iff, Bool.and_eq_false_iff,
      decide_eq_false_iff_not, beq_eq_false_iff_ne]
    exact ⟨by omega, hblank⟩

theorem strip_map_toAscii {s : Text} (h : ∀ c ∈ s, toAscii c = c ∧ isAsciiSpace c = false) :
    stripBy isAsciiSpace (s.map toAscii) = s := by
  have hmap : s.map toAscii = s := by
    conv_rhs => rw [← List.map_id s]
    exact List.map_congr_left fun c hc => (h c hc).1
  rw [hmap, stripBy_eq_self fun c hc => (h c hc).2]

theorem digits_of_hexValue {s : Text} {value : ℕ} (hne : s ≠ [])
    (h : hexValue 0 s = some value) :
    ¬ (dropHexPrefix s = [] ∨ (dropHexPrefix s).head? = some '_') ∧
      underscoredValue 0 (dropHexPrefix s) = some value := by
  have hunderscore : '_' ∉ s := not_mem_of_hexValue h (by decide)
  rw [dropHexPrefix_eq_self (not_mem_of_hexValue h (by decide))
    (not_mem_of_hexValue h (by decide)), underscoredValue_eq hunderscore]
  exact ⟨not_or.mpr ⟨hne, fun hhead => hunderscore (List.mem_of_mem_head? hhead)⟩, h⟩

theorem int16_of_hexValue {s : Text} {value : ℕ} (hne : s ≠ [])
    (h : hexValue 0 s = some value) : int16 s = .ok value := by
  obtain ⟨hguard, hdigits⟩ := digits_of_hexValue hne h
  rw [int16, strip_map_toAscii (ascii_of_hexValue h),
    splitSign_eq_self (not_mem_of_hexValue h (by decide)) (not_mem_of_hexValue h (by decide))]
  simp [hguard, hdigits]

theorem int16_neg_of_hexValue {s : Text} {value : ℕ} (hne : s ≠ [])
    (h : hexValue 0 s = some value) : int16 ('-' :: s) = .ok (-value) := by
  obtain ⟨hguard, hdigits⟩ := digits_of_hexValue hne h
  have hascii : ∀ c ∈ '-' :: s, toAscii c = c ∧ isAsciiSpace c = false :=
    List.forall_mem_cons.mpr ⟨by decide, ascii_of_hexValue h⟩
  rw [int16, strip_map_toAscii hascii, splitSign]
  simp [hguard, hdigits]

/-! ## Formatted integers -/

theorem hexValue_format (width n : ℕ) :
    hexValue 0 ((Nat.toDigits 16 n).leftpad width '0') = some n := by
  rw [hexValue_leftpad, hexValue_toDigits]

theorem format_ne_nil (width n : ℕ) : (Nat.toDigits 16 n).leftpad width '0' ≠ [] := by
  simp [List.leftpad, Nat.toDigits_ne_nil]

theorem int16_format016x (n : ℤ) : int16 (format016x n) = .ok n := by
  unfold format016x
  split
  case isTrue hneg =>
    rw [int16_neg_of_hexValue (format_ne_nil 15 _) (hexValue_format 15 _)]
    congr 1
    omega
  case isFalse hpos =>
    rw [int16_of_hexValue (format_ne_nil 16 _) (hexValue_format 16 _)]
    congr 1
    omega

theorem comma_not_mem_format016x (n : ℤ) : ',' ∉ format016x n := by
  unfold format016x
  split
  · have := not_mem_of_hexValue (hexValue_format 15 n.natAbs) (c := ',') (by decide)
    simpa using this
  · exact not_mem_of_hexValue (hexValue_format 16 n.natAbs) (by decide)

end TdvfFuzz.Foundation
