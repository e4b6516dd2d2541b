import TdvfFuzz.Foundation.Dict
import TdvfFuzz.Foundation.LineTools

/-!
# Settings in layers

A later update of a dictionary replaces what an earlier one has set, and a line
of a settings file replaces the earlier lines about the same setting.  A file
put behind another one is a layer above it, up to the line where they meet.
-/

namespace TdvfFuzz.Foundation

/-! ## Updates -/

namespace Dict

variable {κ ν : Type} [DecidableEq κ]

/-- `d.update(entries)` -/
def update (d : Dict κ ν) (entries : List (κ × ν)) : Dict κ ν :=
  entries.foldl (fun d entry => d.set entry.1 entry.2) d

end Dict

/-! ## Lines -/

section

variable {β : Type} (read : Text → Option β)

/-- What the last line says that `read` understands. -/
def lastRead (lines : List Text) : Option β := (lines.filterMap read).getLast?

theorem lastRead_append (lines above : List Text) :
    lastRead read (lines ++ above) = (lastRead read above).or (lastRead read lines) := by
  rw [lastRead, List.filterMap_append, List.getLast?_append]
  rfl

@[simp] theorem lastRead_singleton (line : Text) : lastRead read [line] = read line := by
  cases hread : read line <;> simp [lastRead, hread]

theorem lastRead_cons (line : Text) (lines : List Text) :
    lastRead read (line :: lines) = (lastRead read lines).or (read line) := by
  rw [← List.singleton_append, lastRead_append, lastRead_singleton]

/-- The lines of a dictionary say what the dictionary says. -/
theorem lastRead_entries {κ : Type} [DecidableEq κ] (d : Dict κ β) {key : κ}
    {line : κ × β → Text}
    (h : ∀ entry ∈ d.entries, read (line entry) = if entry.1 = key then some entry.2 else none) :
    lastRead read (d.entries.map line) = d.get? key := by
  obtain ⟨entries, hnodup⟩ := d
  rw [Dict.get?]
  dsimp only at h ⊢
  induction entries with
  | nil => rfl
  | cons entry entries ih =>
      rw [List.map_cons, List.nodup_cons] at hnodup
      obtain ⟨hentry, hentries⟩ := List.forall_mem_cons.mp h
      rw [List.map_cons, lastRead_cons, ih hnodup.2 hentries, hentry, List.find?_cons]
      by_cases hkey : entry.1 = key
      · have hnone : entries.find? (fun other => other.1 = key) = none :=
          List.find?_eq_none.mpr fun other hother => by
            simpa [hkey] using fun heq : other.1 = key =>
              hnodup.1 (List.mem_map.mpr ⟨other, hother, heq.trans hkey.symm⟩)
        simp [hkey, hnone]
      · simp [hkey]

end

/-! ## Files behind each other -/

/-- The ended lines of a file and what is behind the last newline. -/
structure Cut where
  lines : List Text
  last : Text
  oneLine : ∀ line ∈ lines, '\n' ∉ line
  last_open : '\n' ∉ last

namespace Cut

def text (c : Cut) : Text := terminated '\n' c.lines ++ c.last

/-- The first line of a file that is put behind another one ends its open line. -/
theorem fileLines_append (c : Cut) {first : Text} {above : List Text}
    (h : ∀ line ∈ first :: above, '\n' ∉ line) :
    fileLines (c.text ++ terminated '\n' (first :: above)) =
      c.lines ++ (c.last ++ first) :: above := by
  have hlines : ∀ line ∈ c.lines ++ (c.last ++ first) :: above, '\n' ∉ line := by
    obtain ⟨hfirst, hover⟩ := List.forall_mem_cons.mp h
    refine List.forall_mem_append.mpr ⟨c.oneLine, List.forall_mem_cons.mpr ⟨?_, hover⟩⟩
    rw [List.mem_append, not_or]
    exact ⟨c.last_open, hfirst⟩
  have htext : c.text ++ terminated '\n' (first :: above) =
      terminated '\n' (c.lines ++ (c.last ++ first) :: above) := by
    simp [text, terminated]
  rw [htext, fileLines_terminated hlines]

theorem fileLines_text (c : Cut) :
    fileLines c.text = c.lines ++ if c.last = [] then [] else [c.last] := by
  rw [fileLines, text, splitOn_terminated_append _ c.oneLine,
    List.splitOn_eq_singleton c.last_open]
  by_cases hlast : c.last = [] <;> simp [hlast]

end Cut

end TdvfFuzz.Foundation
