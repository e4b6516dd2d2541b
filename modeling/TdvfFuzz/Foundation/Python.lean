import TdvfFuzz.Foundation.Regex

/-!
# Scripting-language conventions

Exceptions raised by the scripts, indexing that may raise, and files by name.
-/

namespace TdvfFuzz.Foundation

inductive PyError where
  | indexError
  | valueError
  | assertionError
  | unicodeDecodeError
  | fileNotFoundError
  deriving DecidableEq, Repr

@[simp] theorem bind_ok {ε α β : Type} (x : α) (f : α → Except ε β) :
    (Except.ok x >>= f) = f x := rfl

@[simp] theorem bind_error {ε α β : Type} (e : ε) (f : α → Except ε β) :
    (Except.error e >>= f) = Except.error e := rfl

theorem bind_eq_ok {ε α β : Type} {x : Except ε α} {y : β} {f : α → Except ε β} :
    x >>= f = .ok y ↔ ∃ a, x = .ok a ∧ f a = .ok y := by
  cases x <;> simp

theorem mapM_eq_ok_map_iff {ε α β : Type} {f : α → Except ε β} {g : α → β} {xs : List α} :
    xs.mapM f = .ok (xs.map g) ↔ ∀ x ∈ xs, f x = .ok (g x) := by
  induction xs with
  | nil => simp [pure, Except.pure]
  | cons x xs ih =>
      rw [List.mapM_cons, List.map_cons, List.forall_mem_cons, ← ih]
      constructor
      · intro h
        obtain ⟨y, hy, hrest⟩ := bind_eq_ok.mp h
        obtain ⟨ys, hys, heq⟩ := bind_eq_ok.mp hrest
        obtain ⟨rfl, rfl⟩ := List.cons.inj (Except.ok.inj heq)
        exact ⟨hy, hys⟩
      · rintro ⟨hx, hxs⟩
        rw [hx, hxs]
        rfl

theorem exists_ok_of_mapM {ε α β : Type} {f : α → Except ε β} {xs : List α} {ys : List β}
    (h : xs.mapM f = .ok ys) : ∀ x ∈ xs, ∃ y, f x = .ok y := by
  induction xs generalizing ys with
  | nil => simp
  | cons x xs ih =>
      rw [List.mapM_cons] at h
      obtain ⟨y, hy, hrest⟩ := bind_eq_ok.mp h
      obtain ⟨rest, hys, -⟩ := bind_eq_ok.mp hrest
      exact List.forall_mem_cons.mpr ⟨⟨y, hy⟩, ih hys⟩

/-- The invariant rule for a loop that may raise, over the elements met so far. -/
theorem foldlM_induction {ε α β : Type} {P : List α → β → Prop} {f : β → α → Except ε β} {b b' : β}
    {xs : List α} (hinit : P [] b)
    (hstep : ∀ {xs b b' x}, P xs b → f b x = .ok b' → P (xs ++ [x]) b')
    (h : xs.foldlM f b = .ok b') : P xs b' := by
  induction xs using List.reverseRecOn generalizing b' with
  | nil => exact Except.ok.inj h ▸ hinit
  | append_singleton xs x ih =>
      simp only [List.foldlM_append, List.foldlM_cons, List.foldlM_nil, bind_pure] at h
      obtain ⟨before, hbefore, hx⟩ := bind_eq_ok.mp h
      exact hstep (ih hbefore) hx

/-- The same for a loop that raises nothing. -/
theorem exists_foldlM_ok {ε α β : Type} {P : List α → β → Prop} {f : β → α → Except ε β} {b : β}
    {xs : List α} (hinit : P [] b)
    (hstep : ∀ x ∈ xs, ∀ {ys b}, P ys b → ∃ b', f b x = .ok b' ∧ P (ys ++ [x]) b') :
    ∃ b', xs.foldlM f b = .ok b' ∧ P xs b' := by
  induction xs using List.reverseRecOn with
  | nil => exact ⟨b, rfl, hinit⟩
  | append_singleton xs x ih =>
      obtain ⟨before, hbefore, hP⟩ := ih fun y hy => hstep y (by simp [hy])
      obtain ⟨b', hx, hP'⟩ := hstep x (by simp) hP
      refine ⟨b', ?_, hP'⟩
      simp only [List.foldlM_append, List.foldlM_cons, List.foldlM_nil, bind_pure, hbefore,
        bind_ok, hx]

/-- `xs[index]` for a nonnegative index. -/
def item {α : Type} (xs : List α) (index : Nat) : Except PyError α :=
  match xs[index]? with
  | none => .error .indexError
  | some x => .ok x

@[simp] theorem item_eq_ok {α : Type} {xs : List α} {index : Nat} {x : α} :
    item xs index = .ok x ↔ xs[index]? = some x := by
  unfold item
  cases xs[index]? <;> simp

/-- `xs.index(x)` -/
def indexOf {α : Type} [DecidableEq α] (xs : List α) (x : α) : Except PyError ℕ :=
  match xs.idxOf? x with
  | none => .error .valueError
  | some index => .ok index

theorem indexOf_append_cons {α : Type} [DecidableEq α] {before : List α} {x : α}
    (after : List α) (h : x ∉ before) :
    indexOf (before ++ x :: after) x = .ok before.length := by
  have hindex : (before ++ x :: after).idxOf? x = some before.length := by
    induction before with
    | nil => simp [List.idxOf?_cons]
    | cons y before ih =>
        simp only [List.mem_cons, not_or] at h
        simp [List.idxOf?_cons, Ne.symm h.1, ih h.2]
  rw [indexOf, hindex]

theorem indexOf_of_not_mem {α : Type} [DecidableEq α] {xs : List α} {x : α} (h : x ∉ xs) :
    indexOf xs x = .error .valueError := by
  rw [indexOf, List.idxOf?_eq_none_iff.mpr h]

/-- The field before the first separator, `s.split(sep)[0]`. -/
def firstField (sep : Char) (s : Text) : Text := (s.splitOn sep).headD []

theorem firstField_append_sep {sep : Char} {first : Text} (rest : Text)
    (h : sep ∉ first) : firstField sep (first ++ sep :: rest) = first := by
  simp [firstField, splitOn_append_sep sep first rest h]

theorem not_mem_firstField (sep : Char) (s : Text) : sep ∉ firstField sep s := by
  obtain ⟨first, rest, h⟩ :=
    List.exists_cons_of_ne_nil (List.splitOn_ne_nil sep s)
  rw [firstField, h, List.headD_cons]
  exact not_mem_of_mem_splitOn sep s first (by simp [h])

theorem mem_of_mem_firstField {sep c : Char} {s : Text}
    (h : c ∈ firstField sep s) : c ∈ s := by
  obtain ⟨first, rest, hsplit⟩ :=
    List.exists_cons_of_ne_nil (List.splitOn_ne_nil sep s)
  rw [firstField, hsplit, List.headD_cons] at h
  exact mem_of_mem_splitOn sep s (by simp [hsplit]) h

theorem mem_of_mem_firstField_append {sep c : Char} {s rest : Text}
    (h : c ∈ firstField sep (s ++ sep :: rest)) : c ∈ s := by
  by_cases hsep : sep ∈ s
  · obtain ⟨first, others, rfl, hfirst⟩ := List.eq_append_cons_of_mem hsep
    rw [List.append_assoc, List.cons_append, firstField_append_sep _ hfirst] at h
    exact List.mem_append_left _ h
  · rwa [firstField_append_sep rest hsep] at h

/-- Named files and their decoded contents. -/
abbrev Files := Text → Option Text

end TdvfFuzz.Foundation
