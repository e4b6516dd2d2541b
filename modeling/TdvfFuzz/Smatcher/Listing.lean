import TdvfFuzz.Smatcher.Matcher

/-!
# Scanning for locations

The pattern of the coverage reader finds a location where one stands, and
nothing in a text whose colons have no digit behind them.
-/

namespace TdvfFuzz.Smatcher

open TdvfFuzz.Foundation

variable {word : WordClass}

theorem isPathChar_eq_false {c : Char} (hascii : c.toNat < 128)
    (h : c.isAlphanum = false) (hother : c ≠ '_' ∧ c ≠ '.' ∧ c ≠ '/') :
    word.isPathChar c = false := by
  simp [WordClass.isPathChar, word.ascii c hascii, h, hother]

theorem isPathChar_of_isDecimal {c : Char} (h : isDecimal c = true) :
    word.isPathChar c = true := by
  have hdigit : c.isDigit = true := h
  have hascii : c.toNat < 128 := by
    simp only [Char.isDigit, Bool.and_eq_true, decide_eq_true_eq, ge_iff_le,
      UInt32.le_iff_toNat_le] at hdigit
    have : c.toNat = c.val.toNat := rfl
    have : '9'.val.toNat = 57 := rfl
    omega
  simp [WordClass.isPathChar, word.ascii c hascii, Char.isAlphanum, hdigit]

theorem isPathChar_colon : word.isPathChar ':' = false :=
  isPathChar_eq_false (by decide) (by decide) (by decide)

theorem isPathChar_newline : word.isPathChar '\n' = false :=
  isPathChar_eq_false (by decide) (by decide) (by decide)

theorem first_line (word : WordClass) (before : Option Char) {path digits : Text} (rest : Text)
    (hpath : ∀ c ∈ path, word.isPathChar c = true) (hne : path ≠ [])
    (hdigits : ∀ c ∈ digits, isDecimal c = true) (hdne : digits ≠ [])
    (hrest : ∀ c ∈ rest.head?, isDecimal c = false) :
    (coveragePattern word).first before (path ++ ':' :: (digits ++ rest)) =
      some ⟨path ++ ':' :: digits, [], rest⟩ :=
  Regex.first_seq
    (Regex.first_rep before hpath (by simpa using isPathChar_colon)
      (List.length_pos_iff.mpr hne))
    (Regex.first_seq (Regex.first_cls _ _ (by simp))
      (Regex.first_rep _ hdigits hrest (List.length_pos_iff.mpr hdne)))

theorem scanFrom_other {e : Char} (before : Option Char) (s : Text)
    (he : word.isPathChar e = false) :
    Regex.scanFrom (coveragePattern word) 0 before (e :: s) =
      Regex.scanFrom (coveragePattern word) 0 (some e) s := by
  have hnone : (coveragePattern word).first before (e :: s) = none :=
    Regex.first_seq_eq_none (Regex.first_rep_eq_none before he)
  rw [Regex.scanFrom, hnone]

theorem coverage_accepts {before : Option Char} {w rest : Text} {groups : List Text}
    (h : (coveragePattern word).Accepts before w rest groups) :
    ∃ path digits, w = path ++ ':' :: digits ∧ (∀ c ∈ path, word.isPathChar c = true) ∧
      (∀ c ∈ digits, isDecimal c = true) ∧ digits ≠ [] := by
  obtain ⟨path, w₂, _, _, rfl, -, ⟨hpath, -⟩, colon, digits, _, _, rfl, -,
    ⟨⟨c, rfl, hc⟩, -⟩, hdigits, hlength, -⟩ := h
  obtain rfl : c = ':' := by simpa using hc
  exact ⟨path, digits, rfl, hpath, hdigits, List.ne_nil_of_length_pos hlength⟩

theorem coverage_skip (word : WordClass) {w v : Text} {e : Char} (before : Option Char)
    (hw : ':' ∉ w)
    (he : word.isPathChar e = false) (hdigit : e = ':' → ∀ d ∈ v.head?, isDecimal d = false) :
    Regex.scanFrom (coveragePattern word) 0 before (w ++ e :: v) =
      Regex.scanFrom (coveragePattern word) 0 (some e) v := by
  have hnone : ∀ (last : Option Char) (x : Text), ':' ∉ x →
      (coveragePattern word).first last (x ++ e :: v) = none := by
    intro last x hx
    by_contra hfirst
    obtain ⟨m, hm⟩ := Option.ne_none_iff_exists'.mp hfirst
    obtain ⟨hs, haccepts⟩ := Regex.mem_of_first hm
    obtain ⟨path, digits, hconsumed, hpath, hdigits, hne⟩ := coverage_accepts haccepts
    have hnumber : ∀ z : Text, v = digits ++ z → e = ':' → False := by
      rintro z rfl rfl
      obtain ⟨d, digits, rfl⟩ := List.exists_cons_of_ne_nil hne
      simpa [hdigits d (by simp)] using hdigit rfl d (by simp)
    rw [hconsumed, List.append_assoc, List.cons_append] at hs
    rcases List.append_eq_append_iff.mp hs with ⟨y, rfl, hy⟩ | ⟨y, rfl, hy⟩
    · cases y with
      | nil =>
          obtain ⟨he', hv⟩ := List.cons.inj hy
          exact hnumber m.rest hv he'
      | cons d y =>
          obtain ⟨rfl, -⟩ := List.cons.inj hy
          simpa [he] using hpath e (by simp)
    · cases y with
      | nil =>
          obtain ⟨he', hv⟩ := List.cons.inj hy
          exact hnumber m.rest hv.symm he'.symm
      | cons d y =>
          obtain ⟨rfl, -⟩ := List.cons.inj hy
          exact hx (by simp)
  have hlast : Regex.lastOr before (w ++ [e]) = some e := by simp [Regex.lastOr]
  rw [List.append_cons, ← hlast]
  apply Regex.scanFrom_skip
  intro a c b hab
  -- the character `e` is the last one of what is still ahead
  rcases List.eq_nil_or_concat b with rfl | ⟨b, d, rfl⟩
  · obtain ⟨-, hd⟩ := List.append_inj' hab rfl
    obtain rfl : e = c := by simpa using hd
    exact hnone _ [] (by simp)
  · have hab' : w ++ [e] = (a ++ c :: b) ++ [d] := by simpa using hab
    obtain ⟨rfl, hd⟩ := List.append_inj' hab' rfl
    obtain rfl : e = d := by simpa using hd
    simpa using hnone (Regex.lastOr before a) (c :: b) fun h => hw (List.mem_append_right a h)

end TdvfFuzz.Smatcher
