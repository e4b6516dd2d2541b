import TdvfFuzz.FastMatcher.Path

/-!
# Normalized paths are canonical

A path means a way from any directory to a location.  Two paths are normalized
to one path if and only if they mean the same way.
-/

namespace TdvfFuzz.FastMatcher

open TdvfFuzz.Foundation

/-! ## Locations that a path leads to -/

/-- One step from a location; the parent of the root is the root. -/
def resolveComponent (location : List FileName) : Component → List FileName
  | .rootDir => []
  | .curDir => location
  | .parentDir => location.dropLast
  | .normal name => location ++ [name]

def resolve (base : List FileName) (path : List Component) : List FileName :=
  path.foldl resolveComponent base

def RootFirst (path : List Component) : Prop := .rootDir ∉ path.tail

instance : DecidablePred RootFirst := fun path =>
  inferInstanceAs (Decidable (Component.rootDir ∉ path.tail))

theorem component_ne_rootDir {piece : Text} {c : Component} (h : component piece = some c) :
    c ≠ .rootDir := by
  unfold component at h
  split at h
  · cases h
    simp
  · split at h
    · cases h
      simp
    · contradiction

theorem rootFirst_components (path : Text) : RootFirst (components path) := by
  have hpieces : .rootDir ∉ (path.splitOn '/').filterMap component := by
    intro hmem
    obtain ⟨piece, -, hpiece⟩ := List.mem_filterMap.mp hmem
    exact component_ne_rootDir hpiece rfl
  rw [RootFirst, components]
  split
  · exact hpieces
  · split
    · exact hpieces
    · exact fun hmem => hpieces (List.mem_of_mem_tail hmem)

/-! ## The shape of the stack -/

/-- A root or parents, and names behind them. -/
inductive Reduced : List Component → Prop where
  | rooted (names : List FileName) : Reduced (.rootDir :: names.map .normal)
  | relative (ups : ℕ) (names : List FileName) :
      Reduced (List.replicate ups .parentDir ++ names.map .normal)

@[simp] theorem resolve_append (base : List FileName) (path path' : List Component) :
    resolve base (path ++ path') = resolve (resolve base path) path' :=
  List.foldl_append

theorem resolve_names (base names : List FileName) :
    resolve base (names.map .normal) = base ++ names := by
  induction names generalizing base with
  | nil => simp [resolve]
  | cons name names ih =>
      have := ih (base ++ [name])
      simpa [resolve, resolveComponent] using this

theorem resolve_parents (base : List FileName) (ups : ℕ) :
    resolve base (List.replicate ups .parentDir) = base.take (base.length - ups) := by
  induction ups generalizing base with
  | zero => simp [resolve]
  | succ ups ih =>
      have hrest : resolve base (List.replicate (ups + 1) .parentDir) =
          resolve base.dropLast (List.replicate ups .parentDir) := rfl
      rw [hrest, ih, List.dropLast_eq_take, List.take_take, List.length_take]
      congr 1
      omega

theorem resolve_relative (base : List FileName) (ups : ℕ) (names : List FileName) :
    resolve base (List.replicate ups .parentDir ++ names.map .normal) =
      base.take (base.length - ups) ++ names := by
  rw [resolve_append, resolve_parents, resolve_names]

theorem resolve_rooted (base names : List FileName) :
    resolve base (.rootDir :: names.map .normal) = names :=
  resolve_names [] names

theorem pushComponent_concat {stack : List Component} (h : Reduced stack) (name : FileName) :
    Reduced (pushComponent (stack ++ [.normal name]) .parentDir) ∧
      ∀ base, resolve base (pushComponent (stack ++ [.normal name]) .parentDir) =
        resolveComponent (resolve base (stack ++ [.normal name])) .parentDir := by
  have hpop : pushComponent (stack ++ [.normal name]) .parentDir = stack := by
    simp [pushComponent]
  rw [hpop]
  exact ⟨h, fun base => by simp [resolve, resolveComponent]⟩

theorem Reduced.pushComponent {stack : List Component} (h : Reduced stack) {c : Component}
    (hroot : c = .rootDir → stack = []) :
    Reduced (pushComponent stack c) ∧
      ∀ base, resolve base (FastMatcher.pushComponent stack c) =
        resolveComponent (resolve base stack) c := by
  have hpush : ∀ {c : Component}, FastMatcher.pushComponent stack c = stack ++ [c] →
      ∀ base, resolve base (FastMatcher.pushComponent stack c) =
        resolveComponent (resolve base stack) c := by
    intro c hc base
    rw [hc, resolve_append]
    rfl
  cases c with
  | rootDir =>
      obtain rfl := hroot rfl
      exact ⟨.rooted [], hpush rfl⟩
  | curDir => exact ⟨h, fun base => rfl⟩
  | normal name =>
      refine ⟨?_, hpush rfl⟩
      cases h with
      | rooted names => simpa [FastMatcher.pushComponent] using Reduced.rooted (names ++ [name])
      | relative ups names =>
          simpa [FastMatcher.pushComponent] using Reduced.relative ups (names ++ [name])
  | parentDir =>
      cases h with
      | rooted names =>
          rcases List.eq_nil_or_concat names with rfl | ⟨names, name, rfl⟩
          · exact ⟨.rooted [], fun base => rfl⟩
          · have hstack : (.rootDir :: (names.concat name).map .normal : List Component) =
                (.rootDir :: names.map .normal) ++ [.normal name] := by simp
            rw [hstack]
            exact pushComponent_concat (.rooted names) name
      | relative ups names =>
          rcases List.eq_nil_or_concat names with rfl | ⟨names, name, rfl⟩
          · have hup : FastMatcher.pushComponent
                (List.replicate ups .parentDir ++ ([] : List FileName).map .normal) .parentDir =
                  List.replicate ups .parentDir ++ ([] : List FileName).map .normal ++
                    [.parentDir] := by
              cases ups with
              | zero => rfl
              | succ ups => simp [FastMatcher.pushComponent, List.getLast?_replicate]
            refine ⟨?_, hpush hup⟩
            rw [hup]
            simpa [List.replicate_succ'] using Reduced.relative (ups + 1) []
          · have hstack : (List.replicate ups .parentDir ++ (names.concat name).map .normal :
                List Component) =
                (List.replicate ups .parentDir ++ names.map .normal) ++ [.normal name] := by simp
            rw [hstack]
            exact pushComponent_concat (.relative ups names) name

theorem Reduced.foldl {path stack : List Component} (h : Reduced stack)
    (hroot : .rootDir ∉ path) :
    Reduced (path.foldl FastMatcher.pushComponent stack) ∧
      ∀ base, resolve base (path.foldl FastMatcher.pushComponent stack) =
        resolve (resolve base stack) path := by
  induction path generalizing stack with
  | nil => exact ⟨h, fun base => rfl⟩
  | cons c path ih =>
      obtain ⟨hc, hroot⟩ := not_or.mp (mt List.mem_cons.mpr hroot)
      obtain ⟨hreduced, hresolve⟩ := h.pushComponent fun heq => absurd heq.symm hc
      obtain ⟨hfold, hfoldResolve⟩ := ih hreduced hroot
      refine ⟨hfold, fun base => ?_⟩
      rw [List.foldl_cons, hfoldResolve, hresolve]
      rfl

theorem reduced_stack {path : List Component} (h : RootFirst path) :
    Reduced (path.foldl pushComponent []) ∧
      ∀ base, resolve base (path.foldl pushComponent []) = resolve base path := by
  have hnil : Reduced [] := .relative 0 []
  cases path with
  | nil => exact ⟨hnil, fun base => rfl⟩
  | cons c path =>
      obtain ⟨hreduced, hresolve⟩ := hnil.pushComponent (c := c) fun _ => rfl
      have hroot : .rootDir ∉ path := h
      obtain ⟨hfold, hfoldResolve⟩ := hreduced.foldl hroot
      refine ⟨hfold, fun base => ?_⟩
      rw [List.foldl_cons, hfoldResolve, hresolve]
      rfl

/-! ## Different shapes lead to different locations -/

def someName : FileName := ⟨['a'], by decide, by decide⟩

/-- Some base tells two reduced paths apart. -/
theorem Reduced.eq_of_resolve {path path' : List Component} (h : Reduced path)
    (h' : Reduced path') (hresolve : ∀ base, resolve base path = resolve base path') :
    path = path' := by
  cases h with
  | rooted names =>
      cases h' with
      | rooted names' =>
          have heq := hresolve []
          rw [resolve_rooted, resolve_rooted] at heq
          rw [heq]
      | relative ups names' =>
          -- a base below all parents is seen by the relative path only
          have hroot := hresolve []
          have hdeep := congrArg List.length (hresolve (List.replicate (ups + 1) someName))
          rw [resolve_rooted, resolve_relative] at hroot hdeep
          rw [hroot] at hdeep
          simp at hdeep
  | relative ups names =>
      cases h' with
      | rooted names' =>
          have hroot := hresolve []
          have hdeep := congrArg List.length (hresolve (List.replicate (ups + 1) someName))
          rw [resolve_relative, resolve_rooted] at hroot hdeep
          rw [← hroot] at hdeep
          simp at hdeep
      | relative ups' names' =>
          have hroot := hresolve []
          have hdeep := congrArg List.length (hresolve (List.replicate (ups + ups') someName))
          rw [resolve_relative, resolve_relative] at hroot hdeep
          obtain rfl : names = names' := by simpa using hroot
          have hups : ups = ups' := by
            simp only [List.length_append, List.length_take, List.length_replicate] at hdeep
            omega
          rw [hups]

/-! ## Normalized paths -/

theorem normalize_cases (path : List Component) :
    (path.foldl pushComponent [] = [] ∧ normalize path = [.curDir]) ∨
      (path.foldl pushComponent [] ≠ [] ∧ normalize path = path.foldl pushComponent []) := by
  unfold normalize
  split
  case h_1 h => exact .inl ⟨h, rfl⟩
  case h_2 h => exact .inr ⟨h, rfl⟩

theorem resolve_normalize {path : List Component} (h : RootFirst path) (base : List FileName) :
    resolve base (normalize path) = resolve base path := by
  have hresolve := (reduced_stack h).2 base
  rcases normalize_cases path with ⟨hnil, hnormalize⟩ | ⟨-, hnormalize⟩
  · rw [hnormalize, ← hresolve, hnil]
    rfl
  · rw [hnormalize, hresolve]

theorem normalize_eq_iff_stack (path path' : List Component) :
    normalize path = normalize path' ↔
      path.foldl pushComponent [] = path'.foldl pushComponent [] := by
  have hcur : ∀ path : List Component, path.foldl pushComponent [] ≠ [.curDir] := by
    intro path hpath
    have hmem := curDir_not_mem_foldl path [] (by simp)
    simp [hpath] at hmem
  constructor
  · intro h
    rcases normalize_cases path with ⟨hnil, hpath⟩ | ⟨-, hpath⟩ <;>
      rcases normalize_cases path' with ⟨hnil', hpath'⟩ | ⟨-, hpath'⟩
    · rw [hnil, hnil']
    · rw [hpath, hpath'] at h
      exact absurd h.symm (hcur path')
    · rw [hpath, hpath'] at h
      exact absurd h (hcur path)
    · rw [← hpath, ← hpath', h]
  · intro h
    rw [normalize, normalize, h]

theorem normalize_eq_iff_resolve {path path' : List Component} (h : RootFirst path)
    (h' : RootFirst path') :
    normalize path = normalize path' ↔ ∀ base, resolve base path = resolve base path' := by
  obtain ⟨hreduced, hresolve⟩ := reduced_stack h
  obtain ⟨hreduced', hresolve'⟩ := reduced_stack h'
  rw [normalize_eq_iff_stack]
  constructor
  · intro hstack base
    rw [← hresolve, ← hresolve', hstack]
  · intro hbases
    exact hreduced.eq_of_resolve hreduced' fun base => by rw [hresolve, hresolve', hbases]

theorem Reduced.rootFirst {path : List Component} (h : Reduced path) : RootFirst path := by
  cases h with
  | rooted names => simp [RootFirst]
  | relative ups names =>
      intro hmem
      have := List.mem_of_mem_tail hmem
      simp at this

theorem reduced_normalize {path : List Component} (h : RootFirst path) :
    normalize path = [.curDir] ∨ Reduced (normalize path) := by
  rcases normalize_cases path with ⟨-, hnormalize⟩ | ⟨-, hnormalize⟩
  · exact .inl hnormalize
  · exact .inr (hnormalize ▸ (reduced_stack h).1)

theorem normalize_normalize {path : List Component} (h : RootFirst path) :
    normalize (normalize path) = normalize path := by
  have hroot : RootFirst (normalize path) := by
    rcases reduced_normalize h with hcur | hreduced
    · simp [hcur, RootFirst]
    · exact hreduced.rootFirst
  exact (normalize_eq_iff_resolve hroot h).mpr (resolve_normalize h)

/--
Normalized paths are canonical: they are reduced, lead where the path leads, and
are equal for paths that lead alike from every base.
-/
theorem normalize_canonical {path path' : List Component} (h : RootFirst path)
    (h' : RootFirst path') :
    (normalize path = normalize path' ↔ ∀ base, resolve base path = resolve base path') ∧
      (∀ base, resolve base (normalize path) = resolve base path) ∧
      normalize (normalize path) = normalize path ∧
      (normalize path = [.curDir] ∨ Reduced (normalize path)) ∧
      ∀ front, front <+: path → (front.foldl pushComponent []).getLast? ≠ some .curDir := by
  refine ⟨normalize_eq_iff_resolve h h', resolve_normalize h, normalize_normalize h,
    reduced_normalize h, fun front _ hlast => ?_⟩
  exact curDir_not_mem_foldl front [] (by simp) (List.mem_of_getLast? hlast)

theorem normalize_canonical_dots :
    (normalize (components "a/../../b".toList) = normalize (components ".././b".toList) ↔
        ∀ base, resolve base (components "a/../../b".toList) =
          resolve base (components ".././b".toList)) ∧
      normalize (components "a/../../b".toList) = normalize (components ".././b".toList) :=
  ⟨(normalize_canonical (rootFirst_components _) (rootFirst_components _)).1, by decide⟩

end TdvfFuzz.FastMatcher
