import TdvfFuzz.Foundation.Text

/-!
# Ended records

A file of records that each end with one character splits into the records and
an empty rest.  Of equal records only the first may be wanted.
-/

namespace TdvfFuzz.Foundation

/-! ## Records behind each other -/

def terminated (sep : Char) (records : List Text) : Text := records.flatMap (· ++ [sep])

theorem terminated_append (sep : Char) (records others : List Text) :
    terminated sep (records ++ others) = terminated sep records ++ terminated sep others := by
  simp [terminated]

theorem intercalate_append_sep {sep : Char} {records : List Text} (h : records ≠ []) :
    [sep].intercalate records ++ [sep] = terminated sep records := by
  induction records with
  | nil => exact absurd rfl h
  | cons record records ih =>
      cases records with
      | nil => simp [terminated]
      | cons next records =>
          have ih := ih (by simp)
          rw [terminated] at ih
          rw [List.intercalate_cons_cons, terminated, List.flatMap_cons, ← ih]
          simp

theorem splitOn_terminated_append {sep : Char} {records : List Text} (last : Text)
    (h : ∀ record ∈ records, sep ∉ record) :
    (terminated sep records ++ last).splitOn sep = records ++ last.splitOn sep := by
  induction records with
  | nil => rfl
  | cons record records ih =>
      obtain ⟨hrecord, hrecords⟩ := List.forall_mem_cons.mp h
      have htext : terminated sep (record :: records) ++ last =
          record ++ sep :: (terminated sep records ++ last) := by
        simp [terminated]
      rw [htext, splitOn_append_sep sep record _ hrecord, ih hrecords]
      rfl

theorem splitOn_terminated {sep : Char} {records : List Text}
    (h : ∀ record ∈ records, sep ∉ record) :
    (terminated sep records).splitOn sep = records ++ [[]] := by
  simpa using splitOn_terminated_append [] h

/-! ## First occurrences -/

section

variable {α β : Type*} [BEq α] [LawfulBEq α] [BEq β] [LawfulBEq β]

theorem eraseDups_filter (p : α → Bool) (xs : List α) :
    (xs.filter p).eraseDups = xs.eraseDups.filter p := by
  induction hlength : xs.length using Nat.strong_induction_on generalizing xs with
  | _ n ih =>
      cases xs with
      | nil => simp
      | cons x xs =>
          have hshorter : (xs.filter fun y => !(y == x)).length < n := by
            have := List.length_filter_le (fun y => !(y == x)) xs
            simp only [List.length_cons] at hlength
            omega
          have hcomm := ih _ hshorter (xs.filter fun y => !(y == x)) rfl
          rw [List.eraseDups_cons]
          by_cases hx : p x = true
          · rw [List.filter_cons_of_pos hx, List.filter_cons_of_pos hx, List.eraseDups_cons,
              ← hcomm, List.filter_filter, List.filter_filter]
            simp only [Bool.and_comm]
          · rw [List.filter_cons_of_neg hx, List.filter_cons_of_neg hx, ← hcomm,
              List.filter_filter]
            congr 1
            apply List.filter_congr
            intro y _
            by_cases hy : y = x
            · subst hy
              simpa using hx
            · simp [hy]

theorem eraseDups_cons_eq (x : α) (xs : List α) :
    (x :: xs).eraseDups = x :: xs.eraseDups.filter fun y => !(y == x) := by
  rw [List.eraseDups_cons, eraseDups_filter]

theorem nodup_eraseDups (xs : List α) : xs.eraseDups.Nodup := by
  induction xs with
  | nil => simp
  | cons x xs ih =>
      rw [eraseDups_cons_eq, List.nodup_cons]
      exact ⟨by simp, ih.filter _⟩

theorem eraseDups_map {f : α → β} (h : Function.Injective f) (xs : List α) :
    (xs.map f).eraseDups = xs.eraseDups.map f := by
  induction xs with
  | nil => simp
  | cons x xs ih =>
      have hsame : ((fun y => !(y == f x)) ∘ f) = fun y => !(y == x) := by
        funext y
        simp [h.eq_iff]
      rw [List.map_cons, eraseDups_cons_eq, eraseDups_cons_eq, ih, List.filter_map, hsame,
        List.map_cons]

end

end TdvfFuzz.Foundation
