import Mathlib.Data.List.Infix
import Mathlib.Logic.Function.Basic
import TdvfFuzz.Foundation.Python

/-!
# Scripts on a file tree

A step of a script changes the tree and may end the script.  What a step writes
below a directory is of no concern to the files elsewhere, in particular not to
those below another entry of the same parent.
-/

namespace TdvfFuzz.Foundation.FileTree

structure Tree where
  files : Files
  isDir : Text → Bool

/-- `test -e` -/
def Tree.has (tree : Tree) (name : Text) : Bool := tree.isDir name || (tree.files name).isSome

inductive Exit where
  | finished
  | exited (message : Text)
  | raised
  deriving DecidableEq, Repr

abbrev Action := Tree → Tree × Exit

/-! ## Sequences -/

def Action.andThen (first next : Action) : Action := fun tree =>
  match first tree with
  | (tree, .finished) => next tree
  | stopped => stopped

theorem Action.andThen_eq_finished {first next : Action} {tree final : Tree}
    (h : first.andThen next tree = (final, .finished)) :
    ∃ middle, first tree = (middle, .finished) ∧ next middle = (final, .finished) := by
  unfold Action.andThen at h
  split at h
  case h_1 middle hfirst => exact ⟨middle, hfirst, h⟩
  case h_2 hstopped => exact absurd h (hstopped final)

theorem Action.andThen_of_finished {first : Action} (next : Action) {tree middle : Tree}
    (h : first tree = (middle, .finished)) : first.andThen next tree = next middle := by
  rw [Action.andThen, h]

theorem Action.andThen_of_ne {first : Action} (next : Action) {tree : Tree}
    (h : (first tree).2 ≠ .finished) : first.andThen next tree = first tree := by
  unfold Action.andThen
  split
  case h_1 middle hfirst => simp [hfirst] at h
  case h_2 => rfl

/-! ## Directories -/

def under (dir name : Text) : Bool := (dir ++ ['/']).isPrefixOf name

theorem under_iff {dir name : Text} :
    under dir name = true ↔ ∃ inner, name = dir ++ '/' :: inner := by
  rw [under, List.isPrefixOf_iff_prefix]
  constructor
  · rintro ⟨inner, rfl⟩
    exact ⟨inner, by simp⟩
  · rintro ⟨inner, rfl⟩
    exact ⟨inner, by simp⟩

theorem under_trans {dir inner name : Text} (h : under dir inner = true)
    (hname : under inner name = true) : under dir name = true := by
  obtain ⟨rest, rfl⟩ := under_iff.mp h
  obtain ⟨rest', rfl⟩ := under_iff.mp hname
  exact under_iff.mpr ⟨rest ++ '/' :: rest', by simp⟩

/-- A directory and the directories above it. -/
def ancestors (dir : Text) : List Text :=
  dir.inits.filter fun above => above ≠ [] ∧ (above ++ ['/']).isPrefixOf (dir ++ ['/'])

theorem prefix_of_mem_ancestors {dir above : Text} (h : above ∈ ancestors dir) :
    above ++ ['/'] <+: dir ++ ['/'] := by
  simp only [ancestors, List.mem_filter, decide_eq_true_eq] at h
  exact List.isPrefixOf_iff_prefix.mp h.2.2

theorem mem_ancestors_of_starts {dir above : Text} (hne : above ≠ [])
    (h : above ++ ['/'] <+: dir ++ ['/']) : above ∈ ancestors dir := by
  have hprefix : above <+: dir := by
    apply List.prefix_of_prefix_length_le ((List.prefix_append above ['/']).trans h)
      (List.prefix_append dir ['/'])
    simpa using h.length_le
  simp only [ancestors, List.mem_filter, decide_eq_true_eq]
  exact ⟨(List.mem_inits above dir).mpr hprefix, hne, List.isPrefixOf_iff_prefix.mpr h⟩

theorem ne_nil_of_mem_ancestors {dir above : Text} (h : above ∈ ancestors dir) : above ≠ [] := by
  simp only [ancestors, List.mem_filter, decide_eq_true_eq] at h
  exact h.2.1

/-- A directory above one that is below `dir` is above `dir` or below it. -/
theorem mem_ancestors_or_under {dir inner above : Text} (h : under dir inner = true)
    (habove : above ∈ ancestors inner) : above ∈ ancestors dir ∨ under dir above = true := by
  have hdir : dir ++ ['/'] <+: inner ++ ['/'] := by
    obtain ⟨rest, rfl⟩ := under_iff.mp h
    exact ⟨rest ++ ['/'], by simp⟩
  have hne := ne_nil_of_mem_ancestors habove
  cases List.prefix_or_prefix_of_prefix (prefix_of_mem_ancestors habove) hdir with
  | inl hshort => exact .inl (mem_ancestors_of_starts hne hshort)
  | inr hlong =>
      by_cases heq : above = dir
      · exact .inl (mem_ancestors_of_starts hne (by rw [heq]))
      · right
        apply List.isPrefixOf_iff_prefix.mpr
        apply List.prefix_of_prefix_length_le hlong (List.prefix_append above ['/'])
        have hle := hlong.length_le
        simp only [List.length_append, List.length_singleton] at hle ⊢
        by_contra hlt
        have hlength : dir.length = above.length := by omega
        have hsame : dir ++ ['/'] = above ++ ['/'] := hlong.eq_of_length (by simp [hlength])
        exact heq (List.append_cancel_right hsame).symm

/-! ## Entries of one directory -/

/-- The name of a directory entry. -/
def EntryName (name : Text) : Prop := name ≠ [] ∧ '/' ∉ name

instance (name : Text) : Decidable (EntryName name) :=
  inferInstanceAs (Decidable (_ ∧ _))

theorem entry_eq_of_under {root entry entry' name : Text} (h : EntryName entry)
    (h' : EntryName entry') (hunder : under (root ++ entry) name = true)
    (hunder' : under (root ++ entry') name = true) : entry = entry' := by
  obtain ⟨inner, rfl⟩ := under_iff.mp hunder
  obtain ⟨inner', heq⟩ := under_iff.mp hunder'
  rw [List.append_assoc, List.append_assoc] at heq
  exact (eq_of_append_cons h.2 h'.2 (List.append_cancel_left heq)).1

theorem ne_of_under_entry {root entry other name : Text} (h : '/' ∉ other)
    (hunder : under (root ++ entry) name = true) : name ≠ root ++ other := by
  rintro rfl
  obtain ⟨inner, heq⟩ := under_iff.mp hunder
  rw [List.append_assoc] at heq
  exact h (by simp [List.append_cancel_left heq])

/-- What is below an entry is not above an entry. -/
theorem not_mem_ancestors_of_under {dir name : Text} (h : under dir name = true) :
    name ∉ ancestors dir := by
  intro habove
  obtain ⟨inner, rfl⟩ := under_iff.mp h
  have hle := (prefix_of_mem_ancestors habove).length_le
  simp only [List.length_append, List.length_cons] at hle
  omega

theorem not_mem_ancestors_entry {root entry name : Text} (other : Text) (h : EntryName other)
    (hunder : under (root ++ entry) name = true) : name ∉ ancestors (root ++ other) := by
  intro habove
  obtain ⟨inner, rfl⟩ := under_iff.mp hunder
  have hprefix := prefix_of_mem_ancestors habove
  simp only [List.append_assoc, List.cons_append] at hprefix
  have hcount := ((List.prefix_append_right_inj root).mp hprefix).sublist.count_le '/'
  rw [List.count_append, List.count_append, List.count_eq_zero.mpr h.2] at hcount
  simp only [List.count_cons_self, List.count_append] at hcount
  omega

/-- A name is the path itself or below it. -/
def Within (path name : Text) : Prop := name = path ∨ under path name = true

theorem Within.refl (path : Text) : Within path path := .inl rfl

theorem under_of_within {dir path name : Text} (h : under dir path = true)
    (hname : Within path name) : under dir name = true := by
  cases hname with
  | inl heq => rwa [heq]
  | inr hunder => exact under_trans h hunder

theorem Within.not_other {root entry other name : Text} (h : EntryName entry)
    (hother : EntryName other) (hne : entry ≠ other) (hname : Within (root ++ entry) name) :
    ¬Within (root ++ other) name := by
  rintro (heq | hunder)
  · cases hname with
    | inl heq' => exact hne (List.append_cancel_left (heq'.symm.trans heq))
    | inr hunder => exact ne_of_under_entry hother.2 hunder heq
  · cases hname with
    | inl heq => exact ne_of_under_entry h.2 hunder heq
    | inr hunder' => exact hne (entry_eq_of_under h hother hunder' hunder)

/-! ## What a step leaves as it is -/

/-- Files and directories outside `dirs` are as they were. -/
structure Keeps (dirs : List Text) (tree tree' : Tree) : Prop where
  files : ∀ name, (∀ dir ∈ dirs, under dir name = false) → tree'.files name = tree.files name
  isDir : ∀ name, (∀ dir ∈ dirs, under dir name = false ∧ name ∉ ancestors dir) →
    tree'.isDir name = tree.isDir name

section

variable {dirs : List Text}

theorem Keeps.refl (tree : Tree) : Keeps dirs tree tree := ⟨fun _ _ => rfl, fun _ _ => rfl⟩

theorem Keeps.trans {tree middle final : Tree} (h : Keeps dirs tree middle)
    (h' : Keeps dirs middle final) : Keeps dirs tree final where
  files name hname := (h'.files name hname).trans (h.files name hname)
  isDir name hname := (h'.isDir name hname).trans (h.isDir name hname)

theorem Keeps.mono {dirs' : List Text} {tree tree' : Tree} (h : Keeps dirs tree tree')
    (hsub : dirs ⊆ dirs') : Keeps dirs' tree tree' where
  files name hname := h.files name fun dir hdir => hname dir (hsub hdir)
  isDir name hname := h.isDir name fun dir hdir => hname dir (hsub hdir)

theorem Keeps.of_eq {action : Action} (h : ∀ tree, Keeps dirs tree (action tree).1)
    {tree final : Tree} {exit : Exit} (hfinal : action tree = (final, exit)) :
    Keeps dirs tree final := by
  have hkeep := h tree
  rwa [hfinal] at hkeep

theorem keeps_andThen {first next : Action} (hfirst : ∀ tree, Keeps dirs tree (first tree).1)
    (hnext : ∀ tree, Keeps dirs tree (next tree).1) (tree : Tree) :
    Keeps dirs tree (first.andThen next tree).1 := by
  have hfirst := hfirst tree
  unfold Action.andThen
  split
  case h_1 middle heq =>
    rw [heq] at hfirst
    exact hfirst.trans (hnext middle)
  case h_2 => exact hfirst

end

/-! ## Steps -/

/-- `os.makedirs(dir, exist_ok=True)` -/
def makedirs (dir : Text) : Action := fun tree =>
  if ∃ above ∈ ancestors dir, (tree.files above).isSome then (tree, .raised)
  else
    ({ tree with isDir := fun name => tree.isDir name || (ancestors dir).contains name },
      .finished)

def writeFile (name text : Text) : Action := fun tree =>
  if tree.isDir name then (tree, .raised)
  else ({ tree with files := Function.update tree.files name (some text) }, .finished)

/-- A copy of a directory onto another one, which may stop anywhere. -/
structure TreeCopy where
  copy : Text → Text → Action
  files_eq : ∀ src dest tree name, ¬Within dest name →
    (copy src dest tree).1.files name = tree.files name
  isDir_eq : ∀ src dest tree name, name ∉ ancestors dest → under dest name = false →
    (copy src dest tree).1.isDir name = tree.isDir name

section

variable {dir : Text}

theorem keeps_makedirs (tree : Tree) : Keeps [dir] tree (makedirs dir tree).1 := by
  unfold makedirs
  split
  · exact .refl tree
  · exact ⟨fun _ _ => rfl, fun name hname => by simp [(List.forall_mem_singleton.mp hname).2]⟩

theorem makedirs_files (tree : Tree) : (makedirs dir tree).1.files = tree.files := by
  unfold makedirs
  split <;> rfl

theorem makedirs_isDir {name : Text} (h : name ∉ ancestors dir) (tree : Tree) :
    (makedirs dir tree).1.isDir name = tree.isDir name := by
  unfold makedirs
  split <;> simp [h]

theorem writeFile_files {name other : Text} (h : other ≠ name) (text : Text) (tree : Tree) :
    (writeFile name text tree).1.files other = tree.files other := by
  unfold writeFile
  split
  · rfl
  · exact Function.update_of_ne h _ _

theorem writeFile_isDir (name text : Text) (tree : Tree) :
    (writeFile name text tree).1.isDir = tree.isDir := by
  unfold writeFile
  split <;> rfl

theorem keeps_writeFile {name : Text} (h : under dir name = true) (text : Text) (tree : Tree) :
    Keeps [dir] tree (writeFile name text tree).1 := by
  refine ⟨fun other hother => writeFile_files ?_ text tree, fun other _ => ?_⟩
  · rintro rfl
    simp [h] at hother
  · rw [writeFile_isDir]

theorem writeFile_self {name text : Text} {tree final : Tree}
    (h : writeFile name text tree = (final, .finished)) : final.files name = some text := by
  unfold writeFile at h
  split_ifs at h
  · simp at h
  · rw [← (Prod.mk.inj h).1]
    exact Function.update_self _ _ _

theorem TreeCopy.keeps (c : TreeCopy) (src : Text) {dest : Text} (h : under dir dest = true)
    (tree : Tree) : Keeps [dir] tree (c.copy src dest tree).1 := by
  have hinside : ∀ name, under dir name = false → under dest name = false := fun name hname =>
    Bool.eq_false_iff.mpr fun hunder => by simp [under_trans h hunder] at hname
  constructor
  case files =>
    intro name hname
    rw [List.forall_mem_singleton] at hname
    exact c.files_eq src dest tree name fun hwithin => by
      simp [under_of_within h hwithin] at hname
  case isDir =>
    intro name hname
    obtain ⟨hname, habove⟩ := List.forall_mem_singleton.mp hname
    refine c.isDir_eq src dest tree name (fun hmem => ?_) (hinside name hname)
    cases mem_ancestors_or_under h hmem with
    | inl hdir => exact habove hdir
    | inr hunder => simp [hunder] at hname

end

end TdvfFuzz.Foundation.FileTree
