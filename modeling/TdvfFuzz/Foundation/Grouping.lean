import Mathlib.Data.List.Induction
import Mathlib.Data.List.Nodup
import Mathlib.Data.List.Perm.Lattice

/-!
# Grouping items by a key

Items are collected by a key that need not determine their label and class.
A key takes label and class from the first item that has it.  A blank label
counts as no label, so the group of such a key starts again with every item.
-/

namespace TdvfFuzz.Foundation

structure Grouping (α κ μ γ : Type) where
  key : α → κ
  label : α → μ
  cls : α → γ
  blank : μ

structure Groups (α κ μ γ : Type) where
  label : κ → μ
  members : κ → List α
  keys : γ → List κ

namespace Grouping

variable {α κ μ γ : Type}

/-! ## Keys that separate the items -/

/-- Items with one key agree, and two of them do not share a blank label. -/
def Separates (g : Grouping α κ μ γ) (items : List α) : Prop :=
  ∀ a ∈ items, ∀ b ∈ items, a ≠ b → g.key a = g.key b →
    g.label a = g.label b ∧ g.cls a = g.cls b ∧ g.label a ≠ g.blank

theorem Separates.append {g : Grouping α κ μ γ} {items rest : List α}
    (h : g.Separates (items ++ rest)) : g.Separates items := fun a ha b hb =>
  h a (List.mem_append_left _ ha) b (List.mem_append_left _ hb)

variable [DecidableEq κ] {g : Grouping α κ μ γ}

/-- The groups are the classes of the key. -/
structure Exact (g : Grouping α κ μ γ) (seen : List α) (t : Groups α κ μ γ) : Prop where
  members : ∀ k, t.members k = seen.filter fun a => g.key a = k
  label : ∀ a ∈ seen, t.label (g.key a) = g.label a
  nodup : ∀ c, (t.keys c).Nodup
  mem_keys : ∀ c k, k ∈ t.keys c ↔ ∃ a ∈ seen, g.key a = k ∧ g.cls a = c

/-- The groups listed class by class hold every item once. -/
theorem Exact.perm {items : List α} {t : Groups α κ μ γ} {classes : List γ} (h : g.Exact items t)
    (hnodup : items.Nodup) (hsep : g.Separates items) (hclasses : classes.Nodup)
    (hall : ∀ c, c ∈ classes) :
    ((classes.flatMap t.keys).flatMap t.members).Perm items := by
  have hkeys : (classes.flatMap t.keys).Nodup := by
    refine List.nodup_flatMap.mpr ⟨fun c _ => h.nodup c, hclasses.imp ?_⟩
    intro c c' hne k hk hk'
    obtain ⟨a, ha, hkey, hcls⟩ := (h.mem_keys c k).mp hk
    obtain ⟨b, hb, hkey', hcls'⟩ := (h.mem_keys c' k).mp hk'
    by_cases hab : a = b
    · exact hne (by rw [← hcls, ← hcls', hab])
    · have hagree := (hsep a ha b hb hab (hkey.trans hkey'.symm)).2.1
      exact hne (by rw [← hcls, ← hcls', hagree])
  have hmembers : ((classes.flatMap t.keys).flatMap t.members).Nodup := by
    refine List.nodup_flatMap.mpr ⟨fun k _ => by simpa [h.members k] using hnodup.filter _,
      hkeys.imp ?_⟩
    intro k k' hne a ha ha'
    simp only [h.members, List.mem_filter, decide_eq_true_eq] at ha ha'
    exact hne (ha.2.symm.trans ha'.2)
  refine (List.perm_ext_iff_of_nodup hmembers hnodup).mpr fun a => ?_
  simp only [List.mem_flatMap, h.members, List.mem_filter, decide_eq_true_eq]
  constructor
  · rintro ⟨k, -, ha, -⟩
    exact ha
  · intro ha
    exact ⟨g.key a, ⟨g.cls a, hall _, (h.mem_keys _ _).mpr ⟨a, ha, rfl, rfl⟩⟩, ha, rfl⟩

/-- The groups are those of the key, each under the class of its first item. -/
structure Whole (g : Grouping α κ μ γ) (seen : List α) (t : Groups α κ μ γ) : Prop where
  members : ∀ k, t.members k = seen.filter fun a => g.key a = k
  label : ∀ k, t.label k = g.blank ↔ ∀ a ∈ seen, g.key a ≠ k
  nodup : ∀ c, (t.keys c).Nodup
  mem_keys : ∀ c k, k ∈ t.keys c ↔ ∃ a, seen.find? (fun a => g.key a = k) = some a ∧ g.cls a = c

/-- The groups listed class by class hold every item once. -/
theorem Whole.perm {items : List α} {t : Groups α κ μ γ} {classes : List γ} (h : g.Whole items t)
    (hnodup : items.Nodup) (hclasses : classes.Nodup) (hall : ∀ c, c ∈ classes) :
    ((classes.flatMap t.keys).flatMap t.members).Perm items := by
  have hkeys : (classes.flatMap t.keys).Nodup := by
    refine List.nodup_flatMap.mpr ⟨fun c _ => h.nodup c, hclasses.imp ?_⟩
    intro c c' hne k hk hk'
    obtain ⟨a, ha, hcls⟩ := (h.mem_keys c k).mp hk
    obtain ⟨b, hb, hcls'⟩ := (h.mem_keys c' k).mp hk'
    obtain rfl : a = b := Option.some.inj (ha.symm.trans hb)
    exact hne (hcls.symm.trans hcls')
  have hmembers : ((classes.flatMap t.keys).flatMap t.members).Nodup := by
    refine List.nodup_flatMap.mpr ⟨fun k _ => by simpa [h.members k] using hnodup.filter _,
      hkeys.imp ?_⟩
    intro k k' hne a ha ha'
    simp only [h.members, List.mem_filter, decide_eq_true_eq] at ha ha'
    exact hne (ha.2.symm.trans ha'.2)
  refine (List.perm_ext_iff_of_nodup hmembers hnodup).mpr fun a => ?_
  simp only [List.mem_flatMap, h.members, List.mem_filter, decide_eq_true_eq]
  constructor
  · rintro ⟨k, -, ha, -⟩
    exact ha
  · intro ha
    obtain ⟨first, hfirst⟩ : ∃ first, items.find? (fun b => g.key b = g.key a) = some first :=
      Option.isSome_iff_exists.mp (by simpa using ⟨a, ha, rfl⟩)
    exact ⟨g.key a, ⟨g.cls first, hall _, (h.mem_keys _ _).mpr ⟨first, hfirst, rfl⟩⟩, ha, rfl⟩

/-! ## Collecting -/

variable [DecidableEq μ] [DecidableEq γ]

section

variable (g : Grouping α κ μ γ)

def start : Groups α κ μ γ := ⟨fun _ => g.blank, fun _ => [], fun _ => []⟩

def enter (t : Groups α κ μ γ) (a : α) : Groups α κ μ γ :=
  if t.label (g.key a) = g.blank then
    { label := Function.update t.label (g.key a) (g.label a)
      members := Function.update t.members (g.key a) [a]
      keys := Function.update t.keys (g.cls a) (t.keys (g.cls a) ++ [g.key a]) }
  else
    { t with members := Function.update t.members (g.key a) (t.members (g.key a) ++ [a]) }

def collect (items : List α) : Groups α κ μ γ := items.foldl g.enter g.start

@[simp] theorem collect_nil : g.collect [] = g.start := rfl

@[simp] theorem collect_concat (items : List α) (a : α) :
    g.collect (items ++ [a]) = g.enter (g.collect items) a := by
  simp [collect]

end

structure Sound (g : Grouping α κ μ γ) (seen : List α) (t : Groups α κ μ γ) : Prop where
  members_seen : ∀ k, ∀ a ∈ t.members k, a ∈ seen ∧ g.key a = k
  keys_seen : ∀ c, ∀ k ∈ t.keys c, ∃ a ∈ seen, g.key a = k
  members_ne : ∀ k, t.label k ≠ g.blank → t.members k ≠ []
  members_le : ∀ k, t.label k = g.blank → (t.members k).length ≤ 1

theorem Sound.enter {seen : List α} {t : Groups α κ μ γ} (h : g.Sound seen t) (a : α) :
    g.Sound (seen ++ [a]) (g.enter t a) := by
  have hkeys : ∀ c, ∀ k ∈ t.keys c, ∃ b ∈ seen ++ [a], g.key b = k := fun c k hk =>
    (h.keys_seen c k hk).imp fun b hb => ⟨List.mem_append_left _ hb.1, hb.2⟩
  have hmembers : ∀ k, ∀ b ∈ t.members k, b ∈ seen ++ [a] ∧ g.key b = k := fun k b hb =>
    (h.members_seen k b hb).imp_left (List.mem_append_left _)
  rw [Grouping.enter]
  split_ifs with hblank
  · constructor
    case members_seen =>
      intro k b hb
      by_cases hk : k = g.key a
      · subst hk
        obtain rfl : b = a := by simpa using hb
        simp
      · exact hmembers k b (by simpa [hk] using hb)
    case keys_seen =>
      intro c k hk
      by_cases hc : c = g.cls a
      · subst hc
        simp only [Function.update_self, List.mem_append, List.mem_singleton] at hk
        rcases hk with hk | rfl
        · exact hkeys _ k hk
        · exact ⟨a, by simp, rfl⟩
      · exact hkeys c k (by simpa [hc] using hk)
    case members_ne =>
      intro k hk
      by_cases heq : k = g.key a
      · simp [heq]
      · simpa [heq] using h.members_ne k (by simpa [heq] using hk)
    case members_le =>
      intro k hk
      by_cases heq : k = g.key a
      · simp [heq]
      · simpa [heq] using h.members_le k (by simpa [heq] using hk)
  · refine ⟨?_, hkeys, ?_, ?_⟩
    · intro k b hb
      by_cases hk : k = g.key a
      · subst hk
        simp only [Function.update_self, List.mem_append, List.mem_singleton] at hb
        rcases hb with hb | rfl
        · exact hmembers _ b hb
        · simp
      · exact hmembers k b (by simpa [hk] using hb)
    · intro k hk
      by_cases heq : k = g.key a
      · simp [heq]
      · simpa [heq] using h.members_ne k hk
    · intro k hk
      have hne : k ≠ g.key a := by
        rintro rfl
        exact hblank hk
      simpa [hne] using h.members_le k hk

theorem collect_sound (items : List α) : g.Sound items (g.collect items) := by
  induction items using List.reverseRecOn with
  | nil => constructor <;> simp [start]
  | append_singleton items a ih =>
      rw [collect_concat]
      exact ih.enter a

theorem Exact.enter {seen : List α} {t : Groups α κ μ γ} {a : α} (h : g.Exact seen t)
    (hsound : g.Sound seen t) (hnew : a ∉ seen) (hsep : g.Separates (seen ++ [a])) :
    g.Exact (seen ++ [a]) (g.enter t a) := by
  have hagree : ∀ b ∈ seen, g.key b = g.key a →
      g.label b = g.label a ∧ g.cls b = g.cls a ∧ g.label b ≠ g.blank := fun b hb =>
    hsep b (by simp [hb]) a (by simp) fun hab => hnew (hab ▸ hb)
  rw [Grouping.enter]
  split_ifs with hblank
  · -- the key is new: an earlier item with it would have left a label
    have hfresh : ∀ b ∈ seen, g.key b ≠ g.key a := by
      intro b hb hkey
      apply (hagree b hb hkey).2.2
      rw [← h.label b hb, hkey, hblank]
    constructor
    case members =>
      intro k
      by_cases hk : k = g.key a
      · subst hk
        have hnone : (seen.filter fun b => g.key b = g.key a) = [] :=
          List.filter_eq_nil_iff.mpr fun b hb => by simpa using hfresh b hb
        simp [hnone]
      · simp [hk, h.members k, Ne.symm hk]
    case label =>
      intro b hb
      rcases List.mem_append.mp hb with hb | hb
      · simpa [hfresh b hb] using h.label b hb
      · obtain rfl : b = a := by simpa using hb
        simp
    case nodup =>
      intro c
      by_cases hc : c = g.cls a
      · subst hc
        simp only [Function.update_self]
        refine List.nodup_append.mpr ⟨h.nodup _, by simp, ?_⟩
        intro k hk k' hk' heq
        obtain rfl : k' = g.key a := by simpa using hk'
        obtain ⟨b, hb, hkey, -⟩ := (h.mem_keys _ k).mp hk
        exact hfresh b hb (hkey.trans heq)
      · simpa [hc] using h.nodup c
    case mem_keys =>
      intro c k
      by_cases hc : c = g.cls a
      · subst hc
        simp [h.mem_keys, or_and_right, exists_or, eq_comm]
      · simp [hc, h.mem_keys, or_and_right, exists_or, Ne.symm hc]
  · have hseen : ∃ b ∈ seen, g.key b = g.key a := by
      obtain ⟨b, hb⟩ := List.exists_mem_of_ne_nil _ (hsound.members_ne _ hblank)
      exact ⟨b, hsound.members_seen _ b hb⟩
    obtain ⟨b, hb, hkey⟩ := hseen
    obtain ⟨hlabel, hcls, -⟩ := hagree b hb hkey
    constructor
    case members =>
      intro k
      by_cases hk : k = g.key a
      · subst hk
        simp [h.members]
      · simp [hk, h.members k, Ne.symm hk]
    case label =>
      intro b' hb'
      rcases List.mem_append.mp hb' with hb' | hb'
      · exact h.label b' hb'
      · obtain rfl : b' = a := by simpa using hb'
        rw [← hkey, h.label b hb, hlabel]
    case nodup => exact h.nodup
    case mem_keys =>
      intro c k
      rw [h.mem_keys]
      constructor
      · rintro ⟨b', hb', hrest⟩
        exact ⟨b', by simp [hb'], hrest⟩
      · rintro ⟨b', hb', rfl, rfl⟩
        rcases List.mem_append.mp hb' with hb' | hb'
        · exact ⟨b', hb', rfl, rfl⟩
        · obtain rfl : b' = a := by simpa using hb'
          exact ⟨b, hb, hkey, hcls⟩

theorem collect_exact {items : List α} (hnodup : items.Nodup) (hsep : g.Separates items) :
    g.Exact items (g.collect items) := by
  induction items using List.reverseRecOn with
  | nil => constructor <;> simp [start]
  | append_singleton items a ih =>
      rw [collect_concat]
      obtain ⟨hitems, -, hdisjoint⟩ := List.nodup_append.mp hnodup
      have hnew : a ∉ items := fun ha => hdisjoint a ha a (by simp) rfl
      exact (ih hitems hsep.append).enter (collect_sound items) hnew hsep

/-! ## Items with labels -/

theorem Whole.enter {seen : List α} {t : Groups α κ μ γ} {a : α} (h : g.Whole seen t)
    (ha : g.label a ≠ g.blank) : g.Whole (seen ++ [a]) (g.enter t a) := by
  have hmembers : ∀ k, (seen ++ [a]).filter (fun b => g.key b = k) =
      t.members k ++ if g.key a = k then [a] else [] := by
    intro k
    rw [List.filter_append, ← h.members, List.filter_singleton]
    by_cases hk : g.key a = k <;> simp [hk]
  rw [Grouping.enter]
  split_ifs with hblank
  · have hfresh : ∀ b ∈ seen, g.key b ≠ g.key a := (h.label _).mp hblank
    have hnone : t.members (g.key a) = [] := by
      rw [h.members, List.filter_eq_nil_iff]
      simpa using hfresh
    have hfind : seen.find? (fun b => g.key b = g.key a) = none :=
      List.find?_eq_none.mpr fun b hb => by simpa using hfresh b hb
    constructor
    case members =>
      intro k
      rw [hmembers]
      by_cases hk : k = g.key a
      · simp [hk, hnone]
      · simp [hk, Ne.symm hk]
    case label =>
      intro k
      by_cases hk : k = g.key a
      · simp [hk, ha]
      · simp [hk, h.label, or_imp, forall_and, Ne.symm hk]
    case nodup =>
      intro c
      by_cases hc : c = g.cls a
      · subst hc
        simp only [Function.update_self]
        refine List.nodup_append.mpr ⟨h.nodup _, by simp, ?_⟩
        rintro k hk k' hk' rfl
        obtain rfl : k = g.key a := by simpa using hk'
        obtain ⟨b, hb, -⟩ := (h.mem_keys _ _).mp hk
        simp [hfind] at hb
      · simpa [hc] using h.nodup c
    case mem_keys =>
      intro c k
      rw [List.find?_append]
      by_cases hk : k = g.key a
      · subst hk
        have hunlisted : ∀ c, g.key a ∉ t.keys c := by
          intro c hc
          obtain ⟨b, hb, -⟩ := (h.mem_keys _ _).mp hc
          simp [hfind] at hb
        by_cases hc : c = g.cls a
        · simp [hc, hfind]
        · simp [hc, hfind, hunlisted, Ne.symm hc]
      · have hlast : [a].find? (fun b => decide (g.key b = k)) = none := by simp [Ne.symm hk]
        rw [hlast, Option.or_none, ← h.mem_keys]
        by_cases hc : c = g.cls a
        · simp [hc, hk]
        · simp [hc]
  · obtain ⟨b, hb, hkey⟩ : ∃ b ∈ seen, g.key b = g.key a := by
      by_contra hnone
      exact hblank ((h.label _).mpr fun b hb hkey => hnone ⟨b, hb, hkey⟩)
    constructor
    case members =>
      intro k
      rw [hmembers]
      by_cases hk : k = g.key a
      · simp [hk]
      · simp [hk, Ne.symm hk]
    case label =>
      intro k
      rw [h.label, List.forall_mem_append, List.forall_mem_singleton]
      refine ⟨fun hseen => ⟨hseen, ?_⟩, And.left⟩
      rintro rfl
      exact hseen b hb hkey
    case nodup => exact h.nodup
    case mem_keys =>
      intro c k
      rw [h.mem_keys, List.find?_append]
      cases hfind : seen.find? (fun a => decide (g.key a = k)) with
      | some first => simp
      | none =>
          have hk : g.key a ≠ k := by
            rintro rfl
            exact absurd hkey (by simpa using List.find?_eq_none.mp hfind b hb)
          simp [hk]

theorem collect_whole {items : List α} (h : ∀ a ∈ items, g.label a ≠ g.blank) :
    g.Whole items (g.collect items) := by
  induction items using List.reverseRecOn with
  | nil => constructor <;> simp [start]
  | append_singleton items a ih =>
      obtain ⟨hitems, ha⟩ := List.forall_mem_append.mp h
      rw [collect_concat]
      exact (ih hitems).enter (ha a (List.mem_singleton_self a))

end Grouping

end TdvfFuzz.Foundation
