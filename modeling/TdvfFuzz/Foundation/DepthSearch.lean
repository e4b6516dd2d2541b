import Mathlib.Data.Finset.Union

/-!
# Depth-limited search with one set of met items

A node has items, and every item leads to a node.  The search meets the items
of a node, drops those that were met before, and goes on at the nodes that the
others lead to, as long as it has levels left.
-/

namespace TdvfFuzz.Foundation

/-! ## Graphs and visits -/

structure ItemGraph (F A : Type) where
  items : F → Finset A
  node : A → F
  next : Finset A → List F
  mem_next : ∀ {new : Finset A} {f : F}, f ∈ next new ↔ ∃ a ∈ new, node a = f

/-- The levels that are left when a node is entered, and the items that are new. -/
structure Visit (F A : Type) where
  levels : ℕ
  node : F
  new : Finset A
  deriving DecidableEq

theorem ItemGraph.next_empty {F A : Type} (G : ItemGraph F A) : G.next ∅ = [] := by
  refine List.eq_nil_iff_forall_not_mem.mpr fun f hf => ?_
  obtain ⟨a, ha, -⟩ := G.mem_next.mp hf
  exact absurd ha (Finset.notMem_empty a)

/-! ## The search -/

variable {F A : Type} [DecidableEq A]

def metBy : List (Visit F A) → Finset A
  | [] => ∅
  | visit :: log => visit.new ∪ metBy log

theorem mem_metBy {log : List (Visit F A)} {a : A} :
    a ∈ metBy log ↔ ∃ visit ∈ log, a ∈ visit.new := by
  induction log with
  | nil => simp [metBy]
  | cons visit log ih => simp [metBy, ih]

theorem metBy_append (log log' : List (Visit F A)) :
    metBy (log ++ log') = metBy log ∪ metBy log' := by
  ext a
  simp only [mem_metBy, Finset.mem_union, List.mem_append, or_and_right, exists_or]

def searchAll (search : F → Finset A → List (Visit F A)) :
    List F → Finset A → List (Visit F A)
  | [], _ => []
  | f :: nodes, seen =>
      search f seen ++ searchAll search nodes (seen ∪ metBy (search f seen))

/-- The visits of the search that enters `f` with so many levels left. -/
def ItemGraph.search (G : ItemGraph F A) : ℕ → F → Finset A → List (Visit F A)
  | 0, f, seen => [⟨0, f, G.items f \ seen⟩]
  | levels + 1, f, seen =>
      ⟨levels + 1, f, G.items f \ seen⟩ ::
        searchAll (G.search levels) (G.next (G.items f \ seen)) (seen ∪ (G.items f \ seen))

variable {G : ItemGraph F A}

/-! ## What can be met -/

/-- The items of the nodes at most so many levels below the node. -/
def ItemGraph.within (G : ItemGraph F A) : ℕ → F → Finset A
  | 0, f => G.items f
  | levels + 1, f => G.items f ∪ (G.items f).biUnion fun a => G.within levels (G.node a)

/-- What is within reach behind an item of a node that is entered with so many levels left. -/
def ItemGraph.behind (G : ItemGraph F A) : ℕ → A → Finset A
  | 0, _ => ∅
  | levels + 1, a => G.within levels (G.node a)

theorem ItemGraph.within_eq (G : ItemGraph F A) (levels : ℕ) (f : F) :
    G.within levels f = G.items f ∪ (G.items f).biUnion (G.behind levels) := by
  cases levels with
  | zero =>
      have hnone : (G.items f).biUnion (G.behind 0) = ∅ := by
        ext a
        simp [behind]
      rw [hnone, Finset.union_empty, within]
  | succ levels => rfl

theorem ItemGraph.items_subset_within (G : ItemGraph F A) (levels : ℕ) (f : F) :
    G.items f ⊆ G.within levels f := by
  rw [G.within_eq]
  exact Finset.subset_union_left

theorem ItemGraph.behind_subset_within {levels : ℕ} {f : F} {a : A} (ha : a ∈ G.items f) :
    G.behind levels a ⊆ G.within levels f := by
  rw [G.within_eq]
  exact (Finset.subset_biUnion_of_mem _ ha).trans Finset.subset_union_right

theorem ItemGraph.within_mono {levels levels' : ℕ} (h : levels ≤ levels') (f : F) :
    G.within levels f ⊆ G.within levels' f := by
  induction levels generalizing levels' f with
  | zero => exact G.items_subset_within levels' f
  | succ levels ih =>
      cases levels' with
      | zero => omega
      | succ levels' =>
          refine Finset.union_subset_union_right (Finset.biUnion_mono fun a _ => ?_)
          exact ih (by omega) (G.node a)

theorem ItemGraph.behind_mono {levels levels' : ℕ} (h : levels ≤ levels') (a : A) :
    G.behind levels a ⊆ G.behind levels' a := by
  cases levels with
  | zero => exact Finset.empty_subset _
  | succ levels =>
      cases levels' with
      | zero => omega
      | succ levels' => exact within_mono (by omega) (G.node a)

/-! ## What the visits do -/

/-- Each visit finds what was met neither before the search nor by an earlier visit. -/
def ItemGraph.Finds (G : ItemGraph F A) : Finset A → List (Visit F A) → Prop
  | _, [] => True
  | seen, visit :: log => visit.new = G.items visit.node \ seen ∧ G.Finds (seen ∪ visit.new) log

/-- The visits below the nodes that are entered with so many levels left. -/
structure Explores (G : ItemGraph F A) (levels : ℕ) (nodes : List F) (seen : Finset A)
    (log : List (Visit F A)) : Prop where
  finds : G.Finds seen log
  entered : ∀ f ∈ nodes, ∃ visit ∈ log, visit.levels = levels ∧ visit.node = f
  bounded : ∀ visit ∈ log, ∃ f ∈ nodes, G.items visit.node ⊆ G.within levels f
  goesOn : ∀ visit ∈ log, ∀ left, visit.levels = left + 1 → ∀ a ∈ visit.new,
    ∃ next ∈ log, next.levels = left ∧ next.node = G.node a

section

variable {levels : ℕ} {nodes : List F} {seen : Finset A} {log log' : List (Visit F A)}

theorem finds_append : G.Finds seen (log ++ log') ↔
    G.Finds seen log ∧ G.Finds (seen ∪ metBy log) log' := by
  induction log generalizing seen with
  | nil => simp [ItemGraph.Finds, metBy]
  | cons visit log ih =>
      simp only [List.cons_append, ItemGraph.Finds, ih, metBy, Finset.union_assoc, and_assoc]

theorem Explores.append {f : F} (h : Explores G levels [f] seen log)
    (h' : Explores G levels nodes (seen ∪ metBy log) log') :
    Explores G levels (f :: nodes) seen (log ++ log') where
  finds := finds_append.mpr ⟨h.finds, h'.finds⟩
  entered g hg := by
    rcases List.mem_cons.mp hg with rfl | hg
    · obtain ⟨visit, hvisit, hentered⟩ := h.entered g (by simp)
      exact ⟨visit, List.mem_append_left _ hvisit, hentered⟩
    · obtain ⟨visit, hvisit, hentered⟩ := h'.entered g hg
      exact ⟨visit, List.mem_append_right _ hvisit, hentered⟩
  bounded visit hvisit := by
    rcases List.mem_append.mp hvisit with hvisit | hvisit
    · obtain ⟨g, hg, hbounded⟩ := h.bounded visit hvisit
      exact ⟨g, by simp_all, hbounded⟩
    · obtain ⟨g, hg, hbounded⟩ := h'.bounded visit hvisit
      exact ⟨g, by simp [hg], hbounded⟩
  goesOn visit hvisit left hleft a ha := by
    rcases List.mem_append.mp hvisit with hvisit | hvisit
    · obtain ⟨next, hnext, hgoes⟩ := h.goesOn visit hvisit left hleft a ha
      exact ⟨next, List.mem_append_left _ hnext, hgoes⟩
    · obtain ⟨next, hnext, hgoes⟩ := h'.goesOn visit hvisit left hleft a ha
      exact ⟨next, List.mem_append_right _ hnext, hgoes⟩

theorem explores_searchAll {search : F → Finset A → List (Visit F A)}
    (h : ∀ f ∈ nodes, ∀ seen, Explores G levels [f] seen (search f seen)) :
    Explores G levels nodes seen (searchAll search nodes seen) := by
  induction nodes generalizing seen with
  | nil => exact ⟨trivial, by simp, by simp [searchAll], by simp [searchAll]⟩
  | cons f nodes ih =>
      exact (h f (by simp) seen).append (ih fun g hg => h g (by simp [hg]))

theorem explores_search (levels : ℕ) (f : F) (seen : Finset A) :
    Explores G levels [f] seen (G.search levels f seen) := by
  induction levels generalizing f seen with
  | zero =>
      exact ⟨⟨rfl, trivial⟩, by simp [ItemGraph.search],
        by simp [ItemGraph.search, ItemGraph.within], by simp [ItemGraph.search]⟩
  | succ levels ih =>
      have hbelow : Explores G levels (G.next (G.items f \ seen)) (seen ∪ (G.items f \ seen))
          (searchAll (G.search levels) (G.next (G.items f \ seen))
            (seen ∪ (G.items f \ seen))) :=
        explores_searchAll fun g _ => ih g
      refine ⟨⟨rfl, hbelow.finds⟩, by simp [ItemGraph.search], fun visit hvisit => ?_,
        fun visit hvisit left hleft a ha => ?_⟩
      · refine ⟨f, by simp, ?_⟩
        rcases List.mem_cons.mp hvisit with rfl | hvisit
        · exact G.items_subset_within _ f
        · obtain ⟨g, hg, hbounded⟩ := hbelow.bounded visit hvisit
          obtain ⟨a, ha, rfl⟩ := G.mem_next.mp hg
          have hbehind : G.behind (levels + 1) a ⊆ G.within (levels + 1) f :=
            ItemGraph.behind_subset_within (Finset.sdiff_subset ha)
          exact hbounded.trans hbehind
      · rcases List.mem_cons.mp hvisit with rfl | hvisit
        · obtain rfl : levels = left := by simpa using hleft
          obtain ⟨next, hnext, hentered⟩ := hbelow.entered _ (G.mem_next.mpr ⟨a, ha, rfl⟩)
          exact ⟨next, List.mem_cons_of_mem _ hnext, hentered⟩
        · obtain ⟨next, hnext, hgoes⟩ := hbelow.goesOn visit hvisit left hleft a ha
          exact ⟨next, List.mem_cons_of_mem _ hnext, hgoes⟩

/-- An item of a visited node was met before the search, by an earlier visit or by this one. -/
theorem ItemGraph.Finds.covers {before after : List (Visit F A)} {visit : Visit F A}
    (h : G.Finds seen (before ++ visit :: after)) {a : A} (ha : a ∈ G.items visit.node) :
    a ∈ seen ∨ a ∈ metBy before ∨ a ∈ visit.new := by
  have hnew := (finds_append.mp h).2.1
  by_cases hmet : a ∈ seen ∪ metBy before
  · rcases Finset.mem_union.mp hmet with hmet | hmet
    · exact .inl hmet
    · exact .inr (.inl hmet)
  · exact .inr (.inr (hnew ▸ Finset.mem_sdiff.mpr ⟨ha, hmet⟩))

theorem ItemGraph.Finds.fresh (h : G.Finds seen log) :
    ∀ visit ∈ log, visit.new ⊆ G.items visit.node \ seen := by
  induction log generalizing seen with
  | nil => simp
  | cons visit log ih =>
      refine List.forall_mem_cons.mpr ⟨h.1.subset, fun later hlater => ?_⟩
      exact (ih h.2 later hlater).trans
        (Finset.sdiff_subset_sdiff Finset.Subset.rfl Finset.subset_union_left)

end

/-! ## What the search meets -/

section

variable {levels : ℕ} {root : F} {seen : Finset A}

/-- The search meets nothing but items within its bound that were not met before. -/
theorem metBy_search_subset : metBy (G.search levels root seen) ⊆ G.within levels root \ seen := by
  have h : Explores G levels [root] seen (G.search levels root seen) := explores_search ..
  intro a ha
  obtain ⟨visit, hvisit, hnew⟩ := mem_metBy.mp ha
  obtain ⟨f, hf, hbounded⟩ := h.bounded visit hvisit
  obtain rfl := List.mem_singleton.mp hf
  have hfresh := Finset.mem_sdiff.mp (h.finds.fresh visit hvisit hnew)
  exact Finset.mem_sdiff.mpr ⟨hbounded hfresh.1, hfresh.2⟩

/--
No visit drops an item that an earlier one met with too few levels left: what
is within reach behind it was within reach there.
-/
def ItemGraph.LosesNothing (G : ItemGraph F A) (log : List (Visit F A)) : Prop :=
  ∀ before visit after, log = before ++ visit :: after → ∀ a ∈ G.items visit.node,
    ∀ earlier ∈ before, a ∈ earlier.new → G.behind visit.levels a ⊆ G.behind earlier.levels a

/-- It is enough that each item is met with the most levels left. -/
theorem losesNothing_of_le {log : List (Visit F A)}
    (h : ∀ before visit after, log = before ++ visit :: after → ∀ a ∈ G.items visit.node,
      ∀ earlier ∈ before, a ∈ earlier.new → visit.levels ≤ earlier.levels) :
    G.LosesNothing log :=
  fun before visit after hlog a ha earlier hearlier hnew =>
    ItemGraph.behind_mono (h before visit after hlog a ha earlier hearlier hnew) a

theorem within_subset_metBy (hloses : G.LosesNothing (G.search levels root seen))
    (hseen : Disjoint (G.within levels root) seen) {visit : Visit F A}
    (hvisit : visit ∈ G.search levels root seen) {left : ℕ} (hleft : left ≤ visit.levels) :
    G.within left visit.node ⊆ metBy (G.search levels root seen) := by
  have hlog : Explores G levels [root] seen (G.search levels root seen) := explores_search ..
  generalize G.search levels root seen = log at hloses hvisit hlog ⊢
  have hmet : ∀ visit ∈ log, ∀ a ∈ G.items visit.node,
      ∃ earlier ∈ log, a ∈ earlier.new ∧
        G.behind visit.levels a ⊆ G.behind earlier.levels a := by
    intro visit hvisit a ha
    obtain ⟨before, after, rfl⟩ := List.append_of_mem hvisit
    rcases hlog.finds.covers ha with hmet | hmet | hnew
    · obtain ⟨f, hf, hbounded⟩ := hlog.bounded visit hvisit
      obtain rfl := List.mem_singleton.mp hf
      exact absurd hmet (Finset.disjoint_left.mp hseen (hbounded ha))
    · obtain ⟨earlier, hearlier, hnew⟩ := mem_metBy.mp hmet
      exact ⟨earlier, List.mem_append_left _ hearlier, hnew,
        hloses before visit after rfl a ha earlier hearlier hnew⟩
    · exact ⟨visit, hvisit, hnew, Finset.Subset.rfl⟩
  have hitems : ∀ visit ∈ log, G.items visit.node ⊆ metBy log := by
    intro visit hvisit a ha
    obtain ⟨earlier, hearlier, hnew, -⟩ := hmet visit hvisit a ha
    exact mem_metBy.mpr ⟨earlier, hearlier, hnew⟩
  -- an item that was met with fewer levels left has no more behind it than these reach
  induction left using Nat.strongRecOn generalizing visit with
  | ind left ih =>
      rw [G.within_eq]
      refine Finset.union_subset (hitems visit hvisit) (Finset.biUnion_subset.mpr fun a ha => ?_)
      obtain ⟨earlier, hearlier, hnew, hbehind⟩ := hmet visit hvisit a ha
      have hreach : G.behind left a ⊆ G.behind (min left earlier.levels) a := by
        rcases le_total left earlier.levels with h | h
        · rw [min_eq_left h]
        · rw [min_eq_right h]
          exact (ItemGraph.behind_mono hleft a).trans hbehind
      refine hreach.trans ?_
      cases hmin : min left earlier.levels with
      | zero => exact Finset.empty_subset _
      | succ rest =>
          obtain ⟨more, hmore⟩ : ∃ more, earlier.levels = more + 1 := ⟨earlier.levels - 1, by omega⟩
          obtain ⟨next, hnext, hlevels, hnode⟩ := hlog.goesOn earlier hearlier more hmore a hnew
          rw [ItemGraph.behind, ← hnode]
          exact ih rest (by omega) (by omega) hnext

/-- A search that loses nothing is exact unless an item was met before. -/
theorem metBy_search_eq_iff (hloses : G.LosesNothing (G.search levels root seen)) :
    metBy (G.search levels root seen) = G.within levels root ↔
      Disjoint (G.within levels root) seen := by
  have hsubset : metBy (G.search levels root seen) ⊆ G.within levels root \ seen :=
    metBy_search_subset
  constructor
  · intro heq
    rw [heq] at hsubset
    exact Finset.disjoint_of_subset_left hsubset Finset.sdiff_disjoint
  · intro hseen
    obtain ⟨visit, hvisit, hlevels, hnode⟩ :=
      (explores_search levels root seen).entered root (G := G) (by simp)
    refine (hsubset.trans Finset.sdiff_subset).antisymm ?_
    exact hnode ▸ within_subset_metBy hloses hseen hvisit hlevels.ge

end

end TdvfFuzz.Foundation
