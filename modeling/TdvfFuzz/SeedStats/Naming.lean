import TdvfFuzz.SeedStats.Script

/-!
# Names in lines

A seed or a payload is the first one that is named in a line: a fixed stem, and
the longest run of characters behind it.
-/

namespace TdvfFuzz.SeedStats

open TdvfFuzz.Foundation

/-! ## The first name -/

section

variable {stem : Text} {p : Char → Bool}

def Begins (stem : Text) (p : Char → Bool) (text : Text) : Prop :=
  ∃ c rest, text = stem ++ c :: rest ∧ p c = true

/-- A name begins somewhere in the text. -/
def Mentions (stem : Text) (p : Char → Bool) (text : Text) : Prop :=
  ∃ u v, text = u ++ v ∧ Begins stem p v

/-- No name begins in front of this one, and it is as long as possible. -/
def FirstName (stem : Text) (p : Char → Bool) (text name : Text) : Prop :=
  ∃ before run after, text = before ++ (name ++ after) ∧ name = stem ++ run ∧
    (run ≠ [] ∧ (∀ c ∈ run, p c = true) ∧ ∀ c ∈ after.head?, p c = false) ∧
    ∀ u c v, before = u ++ c :: v → ¬ Begins stem p (c :: (v ++ (name ++ after)))

/-- `stem[p]+` -/
def namePattern (stem : Text) (p : Char → Bool) : Regex :=
  .seq (Regex.lit stem) (.rep true 1 p)

theorem accepts_name {run after : Text} (before : Option Char) (hne : run ≠ [])
    (hrun : ∀ c ∈ run, p c = true) :
    (namePattern stem p).Accepts before (stem ++ run) after [] :=
  ⟨stem, run, [], [], rfl, rfl, Regex.accepts_lit.mpr ⟨rfl, rfl⟩, hrun,
    List.length_pos_iff.mpr hne, rfl⟩

theorem begins_of_accepts {before : Option Char} {w after : Text} {groups : List Text}
    (h : (namePattern stem p).Accepts before w after groups) : Begins stem p (w ++ after) := by
  obtain ⟨_, run, _, _, rfl, -, hlit, hrun, hlength, -⟩ := h
  obtain ⟨rfl, -⟩ := Regex.accepts_lit.mp hlit
  obtain ⟨c, run, rfl⟩ := List.exists_cons_of_ne_nil (List.ne_nil_of_length_pos hlength)
  exact ⟨c, run ++ after, by simp, hrun c (by simp)⟩

theorem begins_of_first {before : Option Char} {text : Text} {m : Match}
    (h : (namePattern stem p).first before text = some m) : Begins stem p text := by
  obtain ⟨rfl, haccepts⟩ := Regex.mem_of_first h
  exact begins_of_accepts haccepts

theorem first_ne_none {text : Text} (before : Option Char) (h : Begins stem p text) :
    (namePattern stem p).first before text ≠ none := by
  obtain ⟨c, rest, rfl, hc⟩ := h
  have haccepts : (namePattern stem p).Accepts before (stem ++ [c]) rest [] :=
    accepts_name before (by simp) (by simpa using hc)
  have hfirst := Regex.first_isSome haccepts
  rw [List.append_assoc, List.singleton_append] at hfirst
  exact Option.isSome_iff_ne_none.mp hfirst

theorem first_name {run after : Text} (before : Option Char) (hne : run ≠ [])
    (hrun : ∀ c ∈ run, p c = true) (hafter : ∀ c ∈ after.head?, p c = false) :
    (namePattern stem p).first before (stem ++ run ++ after) = some ⟨stem ++ run, [], after⟩ := by
  rw [List.append_assoc]
  exact Regex.first_seq (Regex.first_lit before stem (run ++ after))
    (Regex.first_rep _ hrun hafter (List.length_pos_iff.mpr hne))

theorem firstName_eq_some_iff {text name : Text} :
    firstName (namePattern stem p) text = some name ↔ FirstName stem p text name := by
  constructor
  · intro h
    obtain ⟨m, hsearch, rfl⟩ := Option.map_eq_some_iff.mp h
    obtain ⟨u, v, rfl, hfirst, hskip⟩ := Regex.exists_first_of_search hsearch
    obtain ⟨c, rest, rfl, hc⟩ := begins_of_first hfirst
    -- the match is the longest one
    have hrun : ∀ d ∈ c :: rest.takeWhile p, p d = true :=
      List.forall_mem_cons.mpr ⟨hc, fun d hd => List.mem_takeWhile_imp hd⟩
    have hafter : ∀ d ∈ (rest.dropWhile p).head?, p d = false := fun d hd => by
      have hhead := List.head?_dropWhile_not p rest
      rwa [Option.mem_def.mp hd] at hhead
    have htext : stem ++ c :: rest = stem ++ c :: rest.takeWhile p ++ rest.dropWhile p := by
      simp
    rw [htext, first_name _ (by simp) hrun hafter, Option.some.injEq] at hfirst
    subst hfirst
    refine ⟨u, c :: rest.takeWhile p, rest.dropWhile p, by rw [htext], rfl,
      ⟨by simp, hrun, hafter⟩, fun a d b hu hbegins => ?_⟩
    rw [← htext] at hbegins
    exact first_ne_none _ hbegins (hskip a d b hu)
  · rintro ⟨u, run, after, rfl, rfl, ⟨hne, hrun, hafter⟩, hskip⟩
    refine Option.map_eq_some_iff.mpr ⟨⟨stem ++ run, [], after⟩, ?_, rfl⟩
    refine Regex.search_of_first (by simp [hne]) (fun a c b hu => ?_)
      (first_name _ hne hrun hafter)
    by_contra hfirst
    obtain ⟨m, hm⟩ := Option.ne_none_iff_exists'.mp hfirst
    exact hskip a c b hu (begins_of_first hm)

theorem firstName_ne_none_iff {text : Text} :
    firstName (namePattern stem p) text ≠ none ↔ Mentions stem p text := by
  constructor
  · intro h
    obtain ⟨name, hname⟩ := Option.ne_none_iff_exists'.mp h
    obtain ⟨m, hsearch, -⟩ := Option.map_eq_some_iff.mp hname
    obtain ⟨u, v, rfl, hfirst, -⟩ := Regex.exists_first_of_search hsearch
    exact ⟨u, v, rfl, begins_of_first hfirst⟩
  · rintro ⟨u, v, rfl, c, rest, rfl, hc⟩
    have hsearch : ((namePattern stem p).search (u ++ (stem ++ [c] ++ rest))).isSome :=
      Regex.search_isSome u (by simp) fun before =>
        accepts_name before (by simp) (by simpa using hc)
    obtain ⟨m, hm⟩ := Option.isSome_iff_exists.mp hsearch
    rw [List.append_assoc, List.singleton_append] at hm
    exact Option.ne_none_iff_exists'.mpr ⟨m.consumed, congrArg (Option.map Match.consumed) hm⟩

end

/-! ## Seeds and payloads -/

def FirstSeed : Text → Text → Prop := FirstName "seed_".toList Char.isDigit

def FirstPayload : Text → Text → Prop := FirstName "payload_".toList isNameChar

def HasPayload : Text → Prop := Mentions "payload_".toList isNameChar

theorem firstName_seed_iff {text seed : Text} :
    firstName seedPattern text = some seed ↔ FirstSeed text seed := firstName_eq_some_iff

theorem firstName_payload_iff {text payload : Text} :
    firstName plPattern text = some payload ↔ FirstPayload text payload := firstName_eq_some_iff

theorem exists_payload_iff {text : Text} :
    (∃ payload, firstName plPattern text = some payload) ↔ HasPayload text :=
  Option.ne_none_iff_exists'.symm.trans firstName_ne_none_iff

/-- The seed is a maximal run behind `seed_`. -/
def IsSeed (seed : Text) : Prop :=
  ∃ digits, seed = "seed_".toList ++ digits ∧ digits ≠ [] ∧ ∀ c ∈ digits, c.isDigit = true

def Names (text seed : Text) : Prop :=
  IsSeed seed ∧ ∃ before after, text = before ++ (seed ++ after) ∧
    ∀ c ∈ after.head?, c.isDigit = false

theorem exists_firstName {text seed : Text} (h : Names text seed) :
    ∃ name, firstName seedPattern text = some name := by
  obtain ⟨⟨digits, rfl, hne, hdigits⟩, before, after, rfl, -⟩ := h
  obtain ⟨c, digits, rfl⟩ := List.exists_cons_of_ne_nil hne
  refine Option.ne_none_iff_exists'.mp (firstName_ne_none_iff.mpr
    ⟨before, _, rfl, c, digits ++ after, ?_, hdigits c (by simp)⟩)
  simp

end TdvfFuzz.SeedStats
