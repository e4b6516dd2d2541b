import Mathlib.Algebra.BigOperators.Group.List.Basic
import Mathlib.Algebra.Order.Ring.Int
import Mathlib.Data.List.Induction
import Mathlib.Data.List.Nodup

/-!
# Dictionaries that keep their insertion order

Setting the value of a key that is present leaves the key where it is.
-/

namespace TdvfFuzz.Foundation

def setEntry {κ ν : Type} [DecidableEq κ] (key : κ) (value : ν) :
    List (κ × ν) → List (κ × ν)
  | [] => [(key, value)]
  | entry :: rest =>
      if entry.1 = key then (key, value) :: rest else entry :: setEntry key value rest

theorem map_fst_setEntry {κ ν : Type} [DecidableEq κ] (key : κ) (value : ν)
    (entries : List (κ × ν)) :
    (setEntry key value entries).map Prod.fst =
      if key ∈ entries.map Prod.fst then entries.map Prod.fst
      else entries.map Prod.fst ++ [key] := by
  induction entries with
  | nil => rfl
  | cons entry rest ih =>
      unfold setEntry
      grind

@[ext] structure Dict (κ ν : Type) where
  entries : List (κ × ν)
  nodup : (entries.map Prod.fst).Nodup
  deriving DecidableEq, Repr

namespace Dict

variable {κ ν : Type}

def empty : Dict κ ν := ⟨[], List.nodup_nil⟩

def keys (d : Dict κ ν) : List κ := d.entries.map Prod.fst

def values (d : Dict κ ν) : List ν := d.entries.map Prod.snd

@[simp] theorem keys_empty : (empty : Dict κ ν).keys = [] := rfl

@[simp] theorem values_empty : (empty : Dict κ ν).values = [] := rfl

variable [DecidableEq κ]

/-- `d.get(key, default)` -/
def getD (d : Dict κ ν) (key : κ) (default : ν) : ν :=
  ((d.entries.find? fun entry => entry.1 = key).map Prod.snd).getD default

/-- `d[key]`, or `none` where the key is missing. -/
def get? (d : Dict κ ν) (key : κ) : Option ν :=
  (d.entries.find? fun entry => entry.1 = key).map Prod.snd

/-- `d[key] = value` -/
def set (d : Dict κ ν) (key : κ) (value : ν) : Dict κ ν where
  entries := setEntry key value d.entries
  nodup := by
    rw [map_fst_setEntry]
    split
    case isTrue => exact d.nodup
    case isFalse h => exact List.nodup_append.mpr ⟨d.nodup, by simp, by grind⟩

@[simp] theorem getD_empty (key : κ) (default : ν) :
    (empty : Dict κ ν).getD key default = default := rfl

theorem find_setEntry (key key' : κ) (value : ν) (entries : List (κ × ν)) :
    ((setEntry key value entries).find? fun entry => entry.1 = key') =
      if key' = key then some (key, value) else entries.find? fun entry => entry.1 = key' := by
  induction entries with
  | nil => by_cases h : key' = key <;> simp [setEntry, h, eq_comm]
  | cons entry rest ih =>
      unfold setEntry
      simp only [List.find?_cons]
      grind

@[simp] theorem getD_set (d : Dict κ ν) (key key' : κ) (value default : ν) :
    (d.set key value).getD key' default = if key' = key then value else d.getD key' default := by
  simp only [getD, set, find_setEntry]
  split <;> rfl

@[simp] theorem get?_set (d : Dict κ ν) (key key' : κ) (value : ν) :
    (d.set key value).get? key' = if key' = key then some value else d.get? key' := by
  simp only [get?, set, find_setEntry]
  split <;> rfl

theorem getD_eq (d : Dict κ ν) (key : κ) (default : ν) :
    d.getD key default = (d.get? key).getD default := rfl

theorem exists_get?_iff {d : Dict κ ν} {key : κ} :
    (∃ value, d.get? key = some value) ↔ key ∈ d.keys := by
  simp only [get?, Option.map_eq_some_iff, keys, List.mem_map]
  constructor
  · rintro ⟨value, entry, hfind, rfl⟩
    exact ⟨entry, List.mem_of_find?_eq_some hfind, by simpa using List.find?_some hfind⟩
  · rintro ⟨entry, hentry, rfl⟩
    have hsome : (d.entries.find? fun other => other.1 = entry.1).isSome :=
      List.find?_isSome.mpr ⟨entry, hentry, by simp⟩
    obtain ⟨other, hother⟩ := Option.isSome_iff_exists.mp hsome
    exact ⟨other.2, other, hother, rfl⟩

theorem getD_of_get? {d : Dict κ ν} {key : κ} {value : ν} (h : d.get? key = some value)
    (default : ν) : d.getD key default = value := by
  rw [getD_eq, h, Option.getD_some]

theorem get?_of_mem {d : Dict κ ν} {key : κ} (h : key ∈ d.keys) (default : ν) :
    d.get? key = some (d.getD key default) := by
  obtain ⟨value, hvalue⟩ := exists_get?_iff.mpr h
  rw [getD_of_get? hvalue, hvalue]

theorem mem_entries_of_get? {d : Dict κ ν} {key : κ} {value : ν}
    (h : d.get? key = some value) : (key, value) ∈ d.entries := by
  obtain ⟨entry, hfind, rfl⟩ := Option.map_eq_some_iff.mp h
  obtain rfl : entry.1 = key := by simpa using List.find?_some hfind
  exact List.mem_of_find?_eq_some hfind

theorem getD_of_not_mem {d : Dict κ ν} {key : κ} {default : ν} (h : key ∉ d.keys) :
    d.getD key default = default := by
  cases hget : d.get? key with
  | none => rw [getD_eq, hget, Option.getD_none]
  | some value => exact absurd (exists_get?_iff.mp ⟨value, hget⟩) h

@[simp] theorem mem_keys_set (d : Dict κ ν) (key key' : κ) (value : ν) :
    key' ∈ (d.set key value).keys ↔ key' = key ∨ key' ∈ d.keys := by
  simp only [keys, set, map_fst_setEntry]
  grind

theorem keys_set_of_mem {d : Dict κ ν} {key : κ} {value : ν} (h : key ∈ d.keys) :
    (d.set key value).keys = d.keys := by
  simp only [keys, set, map_fst_setEntry]
  exact if_pos h

theorem keys_set_of_not_mem {d : Dict κ ν} {key : κ} (value : ν) (h : key ∉ d.keys) :
    (d.set key value).keys = d.keys ++ [key] := by
  simp only [keys, set, map_fst_setEntry]
  exact if_neg h

theorem values_eq_map_getD (d : Dict κ ν) (default : ν) :
    d.values = d.keys.map fun key => d.getD key default := by
  rw [values, keys, List.map_map]
  apply List.map_congr_left
  rintro ⟨key, value⟩ hentry
  have hfind : d.entries.find? (fun entry => entry.1 = key) = some (key, value) := by
    obtain ⟨other, hother⟩ := Option.isSome_iff_exists.mp
      (List.find?_isSome.mpr ⟨(key, value), hentry, by simp⟩ :
        (d.entries.find? fun entry => entry.1 = key).isSome)
    have hkey : other.1 = key := by simpa using List.find?_some hother
    rw [hother, List.inj_on_of_nodup_map d.nodup (List.mem_of_find?_eq_some hother) hentry hkey]
  simp [getD, hfind]

theorem mem_setEntry {key : κ} {value : ν} {entry : κ × ν} {entries : List (κ × ν)}
    (hnodup : (entries.map Prod.fst).Nodup) :
    entry ∈ setEntry key value entries ↔
      entry = (key, value) ∨ entry ∈ entries ∧ entry.1 ≠ key := by
  induction entries with
  | nil => simp [setEntry]
  | cons first rest ih =>
      rw [List.map_cons, List.nodup_cons] at hnodup
      have hfirst : ∀ other ∈ rest, other.1 ≠ first.1 := fun other hother heq =>
        hnodup.1 (heq ▸ List.mem_map_of_mem hother)
      have hrest := ih hnodup.2
      by_cases hkey : first.1 = key
      · rw [setEntry, if_pos hkey]
        grind
      · rw [setEntry, if_neg hkey, List.mem_cons, hrest]
        grind

theorem mem_entries_set {d : Dict κ ν} {key : κ} {value : ν} {entry : κ × ν} :
    entry ∈ (d.set key value).entries ↔
      entry = (key, value) ∨ entry ∈ d.entries ∧ entry.1 ≠ key :=
  mem_setEntry d.nodup

theorem setEntry_of_not_mem {key : κ} {value : ν} {entries : List (κ × ν)}
    (h : key ∉ entries.map Prod.fst) : setEntry key value entries = entries ++ [(key, value)] := by
  induction entries with
  | nil => rfl
  | cons entry rest ih =>
      simp only [List.map_cons, List.mem_cons, not_or] at h
      rw [setEntry, if_neg (Ne.symm h.1), ih h.2]
      rfl

theorem entries_set_of_not_mem {d : Dict κ ν} {key : κ} (value : ν) (h : key ∉ d.keys) :
    (d.set key value).entries = d.entries ++ [(key, value)] :=
  setEntry_of_not_mem h

@[simp] theorem set_set (d : Dict κ ν) (key : κ) (value value' : ν) :
    (d.set key value).set key value' = d.set key value' := by
  have h : ∀ entries : List (κ × ν), setEntry key value' (setEntry key value entries) =
      setEntry key value' entries := by
    intro entries
    induction entries with
    | nil => simp [setEntry]
    | cons entry rest ih =>
        by_cases hkey : entry.1 = key
        · simp [setEntry, hkey]
        · simp [setEntry, hkey, ih]
  simp only [set, h]

theorem getD_add_sum_values_set {M : Type} [AddCommMonoid M] (d : Dict κ M) (key : κ)
    (value : M) :
    d.getD key 0 + (d.set key value).values.sum = value + d.values.sum := by
  obtain ⟨entries, nodup⟩ := d
  simp only [values, set, getD]
  clear nodup
  induction entries with
  | nil => simp [setEntry]
  | cons entry rest ih =>
      by_cases h : entry.1 = key
      · simp only [setEntry, h, if_true, List.find?_cons, decide_true, Option.map_some,
          Option.getD_some, List.map_cons, List.sum_cons]
        exact add_left_comm _ _ _
      · simp only [setEntry, h, if_false, List.find?_cons, decide_false, List.map_cons,
          List.sum_cons]
        rw [add_left_comm, ih, add_left_comm]

theorem sum_values_set (d : Dict κ ℤ) (key : κ) (amount : ℤ) :
    (d.set key (d.getD key 0 + amount)).values.sum = d.values.sum + amount := by
  have := d.getD_add_sum_values_set key (d.getD key 0 + amount)
  omega

/-! ## Collecting -/

/-- The entries in their order; a later one replaces the value of its key. -/
def collect (entries : List (κ × ν)) : Dict κ ν :=
  entries.foldl (fun d entry => d.set entry.1 entry.2) empty

/-- The value stands at the last entry of some key. -/
def Lasting (entries : List (κ × ν)) (value : ν) : Prop :=
  ∃ front key rest, entries = front ++ (key, value) :: rest ∧ ∀ later ∈ rest, later.1 ≠ key

omit [DecidableEq κ] in
theorem lasting_cons {entry : κ × ν} {rest : List (κ × ν)} {value : ν} :
    Lasting (entry :: rest) value ↔
      (entry.2 = value ∧ ∀ later ∈ rest, later.1 ≠ entry.1) ∨ Lasting rest value := by
  constructor
  · rintro ⟨front, key, rest', hentries, hlater⟩
    cases front with
    | nil =>
        obtain ⟨rfl, rfl⟩ := List.cons.inj hentries
        exact .inl ⟨rfl, hlater⟩
    | cons first front =>
        obtain ⟨rfl, rfl⟩ := List.cons.inj hentries
        exact .inr ⟨front, key, rest', rfl, hlater⟩
  · rintro (⟨rfl, hlater⟩ | ⟨front, key, rest', rfl, hlater⟩)
    · exact ⟨[], entry.1, rest, rfl, hlater⟩
    · exact ⟨entry :: front, key, rest', rfl, hlater⟩

theorem mem_values_foldl_set {value : ν} (entries : List (κ × ν)) (d : Dict κ ν) :
    value ∈ (entries.foldl (fun d entry => d.set entry.1 entry.2) d).values ↔
      Lasting entries value ∨
        ∃ entry ∈ d.entries, entry.2 = value ∧ ∀ later ∈ entries, later.1 ≠ entry.1 := by
  induction entries generalizing d with
  | nil => simp [Lasting, values]
  | cons first rest ih =>
      rw [List.foldl_cons, ih, lasting_cons]
      simp only [mem_entries_set, List.forall_mem_cons]
      grind

theorem mem_values_collect {value : ν} (entries : List (κ × ν)) :
    value ∈ (collect entries).values ↔ Lasting entries value := by
  rw [collect, mem_values_foldl_set]
  simp [empty]

theorem collect_concat (entries : List (κ × ν)) (entry : κ × ν) :
    collect (entries ++ [entry]) = (collect entries).set entry.1 entry.2 := by
  simp [collect]

theorem get?_collect (entries : List (κ × ν)) (key : κ) :
    (collect entries).get? key =
      (entries.filter fun entry => entry.1 = key).getLast?.map Prod.snd := by
  induction entries using List.reverseRecOn with
  | nil => rfl
  | append_singleton entries entry ih =>
      rw [collect_concat, get?_set, ih, List.filter_append]
      by_cases h : entry.1 = key
      · simp [h]
      · simp [h, Ne.symm h]

/-! ## Sums under a key -/

def sumAt (entries : List (κ × ℕ)) (key : κ) : ℕ :=
  ((entries.filter fun entry => entry.1 = key).map Prod.snd).sum

theorem sumAt_concat (entries : List (κ × ℕ)) (entry : κ × ℕ) (key : κ) :
    sumAt (entries ++ [entry]) key = sumAt entries key + if key = entry.1 then entry.2 else 0 := by
  by_cases h : entry.1 = key
  · simp [sumAt, h]
  · simp [sumAt, h, Ne.symm h]

theorem sumAt_eq_zero_iff {entries : List (κ × ℕ)} {key : κ} :
    sumAt entries key = 0 ↔ ∀ entry ∈ entries, entry.1 = key → entry.2 = 0 := by
  rw [sumAt, List.sum_eq_zero_iff_forall_eq_nat, List.forall_mem_map]
  simp only [List.mem_filter, decide_eq_true_eq, and_imp]

theorem getD_collect_le (entries : List (κ × ℕ)) (key : κ) :
    (collect entries).getD key 0 ≤ sumAt entries key := by
  induction entries using List.reverseRecOn with
  | nil => simp [collect]
  | append_singleton entries entry ih =>
      rw [collect_concat, getD_set, sumAt_concat]
      split
      case isTrue => exact Nat.le_add_left _ _
      case isFalse => exact ih

/-- Collecting keeps the sums unless a key returns after some amount. -/
theorem collect_sums_iff {entries : List (κ × ℕ)} :
    (∀ key, (collect entries).getD key 0 = sumAt entries key) ↔
      entries.Pairwise fun entry later => entry.1 = later.1 → entry.2 = 0 := by
  induction entries using List.reverseRecOn with
  | nil => simp [collect, sumAt]
  | append_singleton entries entry ih =>
      have hlast : (∀ other ∈ entries, other.1 = entry.1 → other.2 = 0) ↔
          sumAt entries entry.1 = 0 := sumAt_eq_zero_iff.symm
      simp only [List.pairwise_append, List.pairwise_singleton, List.mem_singleton,
        forall_eq, true_and, hlast, ← ih, collect_concat, getD_set, sumAt_concat]
      have hle := getD_collect_le entries entry.1
      constructor
      · intro h
        have hentry := h entry.1
        simp only [if_true] at hentry
        refine ⟨fun key => ?_, by omega⟩
        by_cases hkey : key = entry.1
        · subst hkey
          omega
        · simpa [hkey] using h key
      · rintro ⟨h, hzero⟩ key
        by_cases hkey : key = entry.1
        · simp [hkey, hzero]
        · simpa [hkey] using h key

theorem sum_values_collect {entries : List (κ × ℕ)}
    (h : entries.Pairwise fun entry later => entry.1 = later.1 → entry.2 = 0) :
    (collect entries).values.sum = (entries.map Prod.snd).sum := by
  induction entries using List.reverseRecOn with
  | nil => simp [collect]
  | append_singleton entries entry ih =>
      simp only [List.pairwise_append, List.pairwise_singleton, List.mem_singleton,
        forall_eq, true_and] at h
      have hset := (collect entries).getD_add_sum_values_set entry.1 entry.2
      have hzero := getD_collect_le entries entry.1
      rw [sumAt_eq_zero_iff.mpr h.2] at hzero
      rw [collect_concat, List.map_append, List.sum_append, ← ih h.1]
      simp only [List.map_cons, List.map_nil, List.sum_cons, List.sum_nil]
      omega

/-! ## Merging -/

/-- The values of `d'` are combined one by one with those of `d`. -/
def merge (op : ν → ν → ν) (default : ν) (d d' : Dict κ ν) : Dict κ ν :=
  d'.entries.foldl (fun d entry => d.set entry.1 (op (d.getD entry.1 default) entry.2)) d

section

variable {op : ν → ν → ν} {default : ν}

theorem getD_foldl_merge (hdefault : ∀ v, op v default = v) (key : κ) (entries : List (κ × ν))
    (hnodup : (entries.map Prod.fst).Nodup) (d : Dict κ ν) :
    (entries.foldl (fun d entry => d.set entry.1 (op (d.getD entry.1 default) entry.2)) d).getD
        key default =
      op (d.getD key default)
        (((entries.find? fun entry => entry.1 = key).map Prod.snd).getD default) := by
  induction entries generalizing d with
  | nil => simp [hdefault]
  | cons entry rest ih =>
      rw [List.map_cons, List.nodup_cons] at hnodup
      rw [List.foldl_cons, ih hnodup.2, getD_set, List.find?_cons]
      by_cases hkey : key = entry.1
      · subst hkey
        have hnone : (rest.find? fun other => other.1 = entry.1) = none := by
          rw [List.find?_eq_none]
          intro other hother hsame
          exact hnodup.1 (List.mem_map.mpr ⟨other, hother, by simpa using hsame⟩)
        simp [hnone, hdefault]
      · simp [hkey, Ne.symm hkey]

theorem getD_merge (hdefault : ∀ v, op v default = v) (d d' : Dict κ ν) (key : κ) :
    (merge op default d d').getD key default = op (d.getD key default) (d'.getD key default) :=
  getD_foldl_merge hdefault key d'.entries d'.nodup d

theorem mem_keys_merge (d d' : Dict κ ν) (key : κ) :
    key ∈ (merge op default d d').keys ↔ key ∈ d.keys ∨ key ∈ d'.keys := by
  have hfold : ∀ (entries : List (κ × ν)) (d : Dict κ ν),
      key ∈ (entries.foldl
        (fun d entry => d.set entry.1 (op (d.getD entry.1 default) entry.2)) d).keys ↔
        key ∈ d.keys ∨ key ∈ entries.map Prod.fst := by
    intro entries
    induction entries with
    | nil => simp
    | cons entry rest ih =>
        intro d
        rw [List.foldl_cons, ih, mem_keys_set, List.map_cons, List.mem_cons, or_assoc,
          or_left_comm]
  exact hfold d'.entries d

end

end Dict

end TdvfFuzz.Foundation
