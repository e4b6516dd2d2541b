import Mathlib.Order.Interval.Set.Basic
import Mathlib.Data.Set.Lattice

/-!
# Sets of closed intervals

A set of natural numbers is kept as a list of closed intervals.  Separated
lists, in increasing order and with a gap between neighbours, are canonical:
they are determined by the numbers they cover.
-/

namespace TdvfFuzz.Foundation

structure Interval where
  lo : ℕ
  hi : ℕ
  le : lo ≤ hi
  deriving DecidableEq, Repr

namespace Interval

def single (a : ℕ) : Interval := ⟨a, a, le_refl a⟩

def hull (i j : Interval) : Interval :=
  ⟨min i.lo j.lo, max i.hi j.hi, (min_le_left _ _).trans (i.le.trans (le_max_left _ _))⟩

end Interval

def covered (l : List Interval) : Set ℕ := {a | ∃ i ∈ l, i.lo ≤ a ∧ a ≤ i.hi}

@[simp] theorem mem_covered {l : List Interval} {a : ℕ} :
    a ∈ covered l ↔ ∃ i ∈ l, i.lo ≤ a ∧ a ≤ i.hi := Iff.rfl

theorem covered_nil : covered [] = ∅ := by
  ext a
  simp

theorem covered_cons (i : Interval) (l : List Interval) :
    covered (i :: l) = Set.Icc i.lo i.hi ∪ covered l := by
  ext a
  simp

theorem mem_covered_append {l l' : List Interval} {a : ℕ} :
    a ∈ covered (l ++ l') ↔ a ∈ covered l ∨ a ∈ covered l' := by
  simp [or_and_right, exists_or]

theorem mem_covered_single {a b : ℕ} : a ∈ covered [Interval.single b] ↔ a = b := by
  simp only [mem_covered, List.mem_singleton, exists_eq_left, Interval.single]
  omega

/-- Increasing, with a gap between any two intervals. -/
def Separated (l : List Interval) : Prop := l.Pairwise fun i j => i.hi + 1 < j.lo

theorem Separated.lo_le {i : Interval} {l : List Interval}
    (h : Separated (i :: l)) {a : ℕ} (ha : a ∈ covered (i :: l)) : i.lo ≤ a := by
  obtain ⟨j, hj, hlo, -⟩ := ha
  rcases List.mem_cons.mp hj with rfl | hj
  · exact hlo
  · have := (List.pairwise_cons.mp h).1 j hj
    have := i.le
    omega

theorem Separated.succ_hi_not_mem {i : Interval} {l : List Interval}
    (h : Separated (i :: l)) : i.hi + 1 ∉ covered (i :: l) := by
  rintro ⟨j, hj, hlo, hhi⟩
  rcases List.mem_cons.mp hj with rfl | hj
  · omega
  · have := (List.pairwise_cons.mp h).1 j hj
    omega

theorem Separated.mem_tail_iff {i : Interval} {l : List Interval}
    (h : Separated (i :: l)) {a : ℕ} :
    a ∈ covered l ↔ a ∈ covered (i :: l) ∧ i.hi < a := by
  constructor
  · rintro ⟨j, hj, hlo, hhi⟩
    have := (List.pairwise_cons.mp h).1 j hj
    exact ⟨⟨j, by simp [hj], hlo, hhi⟩, by omega⟩
  · rintro ⟨⟨j, hj, hlo, hhi⟩, ha⟩
    rcases List.mem_cons.mp hj with rfl | hj
    · omega
    · exact ⟨j, hj, hlo, hhi⟩

/-- Separated lists are canonical. -/
theorem Separated.ext {l l' : List Interval} (h : Separated l) (h' : Separated l')
    (hcovered : covered l = covered l') : l = l' := by
  induction l generalizing l' with
  | nil =>
      cases l' with
      | nil => rfl
      | cons j l' =>
          have : j.lo ∈ covered [] := hcovered ▸ ⟨j, by simp, le_refl _, j.le⟩
          simp at this
  | cons i l ih =>
      cases l' with
      | nil =>
          have : i.lo ∈ covered [] := hcovered ▸ ⟨i, by simp, le_refl _, i.le⟩
          simp at this
      | cons j l' =>
          have hi : i.lo ∈ covered (i :: l) := ⟨i, by simp, le_refl _, i.le⟩
          have hj : j.lo ∈ covered (j :: l') := ⟨j, by simp, le_refl _, j.le⟩
          have hlo : i.lo = j.lo :=
            Nat.le_antisymm (h.lo_le (hcovered ▸ hj)) (h'.lo_le (hcovered ▸ hi))
          have hhi : i.hi = j.hi := by
            by_contra hne
            rcases Nat.lt_or_gt_of_ne hne with hlt | hlt
            · exact h.succ_hi_not_mem
                (hcovered ▸ ⟨j, by simp, by have := i.le; omega, by omega⟩)
            · exact h'.succ_hi_not_mem
                (hcovered ▸ ⟨i, by simp, by have := j.le; omega, by omega⟩)
          obtain rfl : i = j := by
            cases i
            cases j
            simp_all
          have htail : covered l = covered l' := by
            ext a
            rw [h.mem_tail_iff, h'.mem_tail_iff, hcovered]
          rw [ih (List.pairwise_cons.mp h).2 (List.pairwise_cons.mp h').2 htail]

theorem Separated.exists_of_succ {l : List Interval} (h : Separated l) {a : ℕ}
    (ha : a ∈ covered l) (hsucc : a + 1 ∈ covered l) :
    ∃ i ∈ l, i.lo ≤ a ∧ a < i.hi := by
  induction l with
  | nil => simp at ha
  | cons i l ih =>
      by_cases hi : i.hi < a
      · have hsucc' := h.mem_tail_iff.mpr ⟨hsucc, by omega⟩
        obtain ⟨j, hj, hmem⟩ := ih (List.pairwise_cons.mp h).2
          (h.mem_tail_iff.mpr ⟨ha, hi⟩) hsucc'
        exact ⟨j, by simp [hj], hmem⟩
      · have hlo := h.lo_le ha
        refine ⟨i, by simp, hlo, ?_⟩
        by_contra hlast
        obtain rfl : a = i.hi := by omega
        exact h.succ_hi_not_mem hsucc

/--
A half-open probe whose upper end is exclusive finds an interval exactly when
it contains a covered number behind its first one, or starts with two of them.
-/
theorem Separated.exists_probe_iff {l : List Interval} (h : Separated l)
    {start stop : ℕ} (hrow : start < stop) :
    (∃ i ∈ l, start < i.hi ∧ i.lo < stop) ↔
      (∃ a ∈ covered l, start < a ∧ a < stop) ∨
        (start ∈ covered l ∧ start + 1 ∈ covered l) := by
  constructor
  · rintro ⟨i, hi, hstart, hstop⟩
    by_cases hlo : i.lo ≤ start
    · exact .inr ⟨⟨i, hi, hlo, by omega⟩, ⟨i, hi, by omega, by omega⟩⟩
    · exact .inl ⟨i.lo, ⟨i, hi, le_refl _, i.le⟩, by omega, hstop⟩
  · rintro (⟨a, ⟨i, hi, hlo, hhi⟩, hstart, hstop⟩ | ⟨hstart, hsucc⟩)
    · exact ⟨i, hi, by omega, by omega⟩
    · obtain ⟨i, hi, hlo, hhi⟩ := h.exists_of_succ hstart hsucc
      exact ⟨i, hi, hhi, by omega⟩

/-! ## Insertion -/

/-- Insert an interval, joining it with all intervals that it meets or touches. -/
def insertInterval (i : Interval) : List Interval → List Interval
  | [] => [i]
  | j :: rest =>
      if i.hi + 1 < j.lo then i :: j :: rest
      else if j.hi + 1 < i.lo then j :: insertInterval i rest
      else insertInterval (i.hull j) rest

theorem covered_insertInterval (i : Interval) (l : List Interval) :
    covered (insertInterval i l) = covered l ∪ Set.Icc i.lo i.hi := by
  induction l generalizing i with
  | nil => simp [insertInterval, covered_cons, covered_nil]
  | cons j rest ih =>
      unfold insertInterval
      split
      · rw [covered_cons, Set.union_comm]
      · split
        · rw [covered_cons, ih, covered_cons, Set.union_assoc]
        · rw [ih, covered_cons]
          ext a
          have := i.le
          have := j.le
          simp only [Set.mem_union, Set.mem_Icc, Interval.hull]
          constructor
          · rintro (h | ⟨hlo, hhi⟩)
            · exact .inl (.inr h)
            · by_cases hj : j.lo ≤ a ∧ a ≤ j.hi
              · exact .inl (.inl hj)
              · exact .inr (by omega)
          · rintro ((h | h) | h)
            · exact .inr (by omega)
            · exact .inl h
            · exact .inr (by omega)

theorem lt_lo_insertInterval {b : ℕ} {i : Interval} {l : List Interval}
    (hi : b < i.lo) (hl : ∀ j ∈ l, b < j.lo) :
    ∀ j ∈ insertInterval i l, b < j.lo := by
  induction l generalizing i with
  | nil => simpa [insertInterval] using hi
  | cons j rest ih =>
      have hrest : ∀ k ∈ rest, b < k.lo := fun k hk => hl k (by simp [hk])
      have hj : b < j.lo := hl j (by simp)
      unfold insertInterval
      split
      · simpa [hi, hj] using hrest
      · split
        · simpa [hj] using ih hi hrest
        · exact ih (by simp [Interval.hull, hi, hj]) hrest

theorem Separated.insertInterval {l : List Interval} (h : Separated l) (i : Interval) :
    Separated (insertInterval i l) := by
  induction l generalizing i with
  | nil => simp [Foundation.insertInterval, Separated]
  | cons j rest ih =>
      obtain ⟨hj, hrest⟩ := List.pairwise_cons.mp h
      unfold Foundation.insertInterval
      split
      case isTrue hbefore =>
        refine List.pairwise_cons.mpr ⟨fun k hk => ?_, h⟩
        rcases List.mem_cons.mp hk with rfl | hk
        · exact hbefore
        · have := hj k hk
          have := j.le
          omega
      case isFalse =>
        split
        case isTrue hafter =>
          exact List.pairwise_cons.mpr ⟨lt_lo_insertInterval hafter hj, ih hrest i⟩
        case isFalse => exact ih hrest _

/-! ## Interval sets -/

/--
What a coalescing interval set offers: an insertion that adds an interval to
the union, and an iteration over the maximal intervals of the union.
-/
structure RangeInclusiveSet (S : Type) where
  new : S
  insert : S → Interval → S
  iter : S → List Interval
  iter_new : iter new = []
  covered_insert : ∀ s i, covered (iter (insert s i)) = covered (iter s) ∪ Set.Icc i.lo i.hi
  separated_iter : ∀ s, Separated (iter s)

namespace RangeInclusiveSet

variable {S : Type} (R : RangeInclusiveSet S)

def addresses (s : S) : Set ℕ := covered (R.iter s)

theorem iter_eq_of_addresses {s s' : S} (h : R.addresses s = R.addresses s') :
    R.iter s = R.iter s' :=
  (R.separated_iter s).ext (R.separated_iter s') h

@[simp] theorem addresses_new : R.addresses R.new = ∅ := by
  rw [addresses, R.iter_new, covered_nil]

@[simp] theorem addresses_insert (s : S) (i : Interval) :
    R.addresses (R.insert s i) = R.addresses s ∪ Set.Icc i.lo i.hi :=
  R.covered_insert s i

theorem addresses_foldl (s : S) (l : List Interval) :
    R.addresses (l.foldl R.insert s) = R.addresses s ∪ covered l := by
  induction l generalizing s with
  | nil => simp [covered_nil]
  | cons i l ih =>
      rw [List.foldl_cons, ih, addresses_insert, covered_cons, Set.union_assoc]

def lists : RangeInclusiveSet {l : List Interval // Separated l} where
  new := ⟨[], List.Pairwise.nil⟩
  insert s i := ⟨insertInterval i s.1, s.2.insertInterval i⟩
  iter s := s.1
  iter_new := rfl
  covered_insert s i := covered_insertInterval i s.1
  separated_iter s := s.2

end RangeInclusiveSet

end TdvfFuzz.Foundation
