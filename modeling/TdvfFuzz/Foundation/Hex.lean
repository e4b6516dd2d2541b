import Mathlib.Data.Nat.Digits.Defs
import TdvfFuzz.Foundation.Text

/-!
# Hexadecimal numbers

Digits are read in either case and written in lower case.
-/

namespace TdvfFuzz.Foundation

def hexDigit (c : Char) : Option ℕ :=
  let n := c.toNat
  if 48 ≤ n ∧ n ≤ 57 then some (n - 48)
  else if 97 ≤ n ∧ n ≤ 102 then some (n - 87)
  else if 65 ≤ n ∧ n ≤ 70 then some (n - 55)
  else none

def hexValue : ℕ → Text → Option ℕ
  | value, [] => some value
  | value, c :: s => (hexDigit c).bind fun digit => hexValue (16 * value + digit) s

theorem range_of_hexDigit {c : Char} {digit : ℕ} (h : hexDigit c = some digit) :
    (48 ≤ c.toNat ∧ c.toNat ≤ 57) ∨ (65 ≤ c.toNat ∧ c.toNat ≤ 70) ∨
      (97 ≤ c.toNat ∧ c.toNat ≤ 102) := by
  unfold hexDigit at h
  grind

theorem hexValue_append (value : ℕ) (s t : Text) :
    hexValue value (s ++ t) = (hexValue value s).bind fun value => hexValue value t := by
  induction s generalizing value with
  | nil => rfl
  | cons c s ih =>
      simp only [List.cons_append, hexValue, ih, Option.bind_assoc]

theorem exists_hexValue {s : Text} (h : ∀ c ∈ s, hexDigit c ≠ none) (value : ℕ) :
    ∃ result, hexValue value s = some result := by
  induction s generalizing value with
  | nil => exact ⟨value, rfl⟩
  | cons c s ih =>
      obtain ⟨hc, hs⟩ := List.forall_mem_cons.mp h
      obtain ⟨digit, hdigit⟩ := Option.ne_none_iff_exists'.mp hc
      rw [hexValue, hdigit, Option.bind_some]
      exact ih hs _

theorem range_of_hexValue {value result : ℕ} {s : Text} (h : hexValue value s = some result)
    {c : Char} (hc : c ∈ s) :
    (48 ≤ c.toNat ∧ c.toNat ≤ 57) ∨ (65 ≤ c.toNat ∧ c.toNat ≤ 70) ∨
      (97 ≤ c.toNat ∧ c.toNat ≤ 102) := by
  induction s generalizing value with
  | nil => simp at hc
  | cons d s ih =>
      obtain ⟨digit, hdigit, hrest⟩ := Option.bind_eq_some_iff.mp h
      rcases List.mem_cons.mp hc with rfl | hc
      · exact range_of_hexDigit hdigit
      · exact ih hrest hc

theorem not_mem_of_hexValue {value result : ℕ} {s : Text}
    (h : hexValue value s = some result) {c : Char} (hc : hexDigit c = none) : c ∉ s := by
  intro hmem
  have := range_of_hexValue h hmem
  unfold hexDigit at hc
  grind

/-! ## Formatting -/

theorem hexDigit_digitChar : ∀ digit < 16, hexDigit (Nat.digitChar digit) = some digit := by
  decide

theorem hexValue_toDigits (n : ℕ) : hexValue 0 (Nat.toDigits 16 n) = some n := by
  induction n using Nat.strong_induction_on with
  | _ n ih =>
      by_cases hlt : n < 16
      · simp [Nat.toDigits_of_lt_base hlt, hexValue, hexDigit_digitChar n hlt]
      · rw [Nat.toDigits_of_base_le (by decide) (not_lt.mp hlt), hexValue_append,
          ih (n / 16) (by omega), Option.bind_some]
        simp only [hexValue, hexDigit_digitChar _ (Nat.mod_lt n (by decide)),
          Option.bind_some, Nat.div_add_mod]

theorem hexValue_leftpad (width : ℕ) (s : Text) :
    hexValue 0 (s.leftpad width '0') = hexValue 0 s := by
  have hzeros : ∀ count, hexValue 0 (List.replicate count '0') = some 0 := by
    intro count
    induction count with
    | zero => rfl
    | succ count ih => exact ih
  rw [List.leftpad, hexValue_append, hzeros, Option.bind_some]

end TdvfFuzz.Foundation
