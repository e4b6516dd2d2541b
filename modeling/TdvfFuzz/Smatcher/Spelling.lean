import TdvfFuzz.FastMatcher.Canonical
import TdvfFuzz.FastMatcher.Report
import TdvfFuzz.Smatcher.Normpath

/-!
# Two keys of one location

`smatcher` strips dots and slashes off a location and then normalizes the text;
`fast_matcher` normalizes the path in front of the colon.
-/

namespace TdvfFuzz.Smatcher

open TdvfFuzz.Foundation TdvfFuzz.FastMatcher

/-- A relative path to a file, without colons. -/
structure SpelledPath (path : Text) : Prop where
  relative : path.head? ≠ some '/'
  noColon : ':' ∉ path
  file : ∃ name : FileName, (path.splitOn '/').getLast? = some name.text

def lineSuffix (line : UInt32) : Text := ':' :: Nat.toDigits 10 line.toNat

/-- `path:n` -/
def spelling (path : Text) (line : UInt32) : Text := path ++ lineSuffix line

/-- Dots and slashes in front are dropped without a change of the location. -/
def StripHarmless (path : Text) : Prop :=
  ∀ base, resolve base (components (path.dropWhile isDotSlash)) = resolve base (components path)

/-! ## The key of `fast_matcher` -/

theorem parseU32_toDigits (n : UInt32) : parseU32 (Nat.toDigits 10 n.toNat) = some n := by
  have hdigits : ∀ c ∈ Nat.toDigits 10 n.toNat, c.isDigit = true := fun c hc =>
    Nat.isDigit_of_mem_toDigits (by decide) (by decide) hc
  have hplus : dropPlus (Nat.toDigits 10 n.toNat) = Nat.toDigits 10 n.toNat := by
    unfold dropPlus
    split
    case h_1 h => exact absurd (hdigits '+' (by simp [h])) (by decide)
    case h_2 => rfl
  rw [parseU32, hplus, if_pos ⟨Nat.toDigits_ne_nil, hdigits⟩]
  simp [n.toNat_lt_size]

theorem digit_not_mem_lineText {c : Char} (hc : c.isDigit = false) (n : ℕ) :
    c ∉ Nat.toDigits 10 n := by
  intro hmem
  have := Nat.isDigit_of_mem_toDigits (by decide) (by decide) hmem
  simp [hc] at this

theorem fromString_spelling {path : Text} (h : ':' ∉ path) (line : UInt32) :
    LineInfo.fromString (spelling path line) = some (.new (components path) line) := by
  have hsplit : (spelling path line).splitOn ':' = [path, Nat.toDigits 10 line.toNat] := by
    rw [spelling, lineSuffix, splitOn_append_sep _ _ _ h,
      List.splitOn_eq_singleton (digit_not_mem_lineText (by decide) _)]
  rw [LineInfo.fromString, hsplit]
  simp [parseU32_toDigits]

/-! ## One stack for both -/

/-- Pieces and components of a relative path. -/
structure SameStack (stack : List Text) (cs : List Component) : Prop where
  texts : stack.reverse = cs.map Component.text
  relative : ∀ c ∈ cs, c ≠ .rootDir ∧ c ≠ .curDir

theorem SameStack.push {stack : List Text} {cs : List Component} (h : SameStack stack cs)
    {c : Component} (hroot : c ≠ .rootDir) (hcur : c ≠ .curDir) :
    SameStack (c.text :: stack) (cs ++ [c]) where
  texts := by simp [h.texts]
  relative := by
    intro d hd
    rcases List.mem_append.mp hd with hd | hd
    · exact h.relative d hd
    · obtain rfl := List.mem_singleton.mp hd
      exact ⟨hroot, hcur⟩

theorem SameStack.parent {stack : List Text} {cs : List Component} (h : SameStack stack cs) :
    SameStack (pushPiece false stack ['.', '.']) (pushComponent cs .parentDir) := by
  rcases List.eq_nil_or_concat cs with rfl | ⟨cs, c, rfl⟩
  · obtain rfl : stack = [] := by simpa using h.texts
    exact h.push (c := .parentDir) (by simp) (by simp)
  · rw [List.concat_eq_append] at h ⊢
    have htexts := h.texts
    rw [List.map_append, List.map_singleton, List.reverse_eq_append_iff, List.reverse_singleton,
      List.singleton_append] at htexts
    obtain ⟨hroot, hcur⟩ := h.relative c (by simp)
    subst htexts
    cases c with
    | rootDir => exact absurd rfl hroot
    | curDir => exact absurd rfl hcur
    | parentDir =>
        have hpush := h.push (c := .parentDir) (by simp) (by simp)
        simpa [pushPiece, pushComponent, Component.text] using hpush
    | normal name =>
        have hname : name.text ≠ ['.', '.'] := name.proper.2.2
        refine ⟨?_, fun d hd => h.relative d ?_⟩
        · simp [pushPiece, pushComponent, Component.text, hname]
        · simp only [pushComponent, List.getLast?_concat, List.dropLast_concat] at hd
          exact List.mem_append_left _ hd

theorem component_of_file (name : FileName) : component name.text = some (.normal name) := by
  rw [component, dif_pos ⟨name.proper, name.noSlash⟩]

theorem SameStack.step {stack : List Text} {cs : List Component} (h : SameStack stack cs)
    {piece : Text} (hslash : '/' ∉ piece) :
    SameStack (pushPiece false stack piece)
      ((component piece).toList.foldl pushComponent cs) := by
  by_cases hproper : piece ≠ [] ∧ piece ≠ ['.'] ∧ piece ≠ ['.', '.']
  · have hfile := component_of_file ⟨piece, hproper, hslash⟩
    have hpush := h.push (c := .normal ⟨piece, hproper, hslash⟩) (by simp) (by simp)
    simp only at hfile
    rw [hfile]
    simpa [pushPiece, pushComponent, Component.text, hproper.1, hproper.2.1, hproper.2.2]
      using hpush
  · by_cases hdots : piece = ['.', '.']
    · subst hdots
      exact h.parent
    · have hskip : piece = [] ∨ piece = ['.'] := by grind
      rcases hskip with rfl | rfl <;> exact h

theorem SameStack.foldl {stack : List Text} {cs : List Component} (h : SameStack stack cs)
    {pieces : List Text} (hslash : ∀ piece ∈ pieces, '/' ∉ piece) :
    SameStack (pieces.foldl (pushPiece false) stack)
      ((pieces.filterMap component).foldl pushComponent cs) := by
  induction pieces generalizing stack cs with
  | nil => exact h
  | cons piece pieces ih =>
      obtain ⟨hpiece, hslash⟩ := List.forall_mem_cons.mp hslash
      have hrest := ih (h.step hpiece) hslash
      rw [List.foldl_cons]
      cases hc : component piece with
      | none => simpa [hc] using hrest
      | some c => simpa [hc] using hrest

/-! ## Normal forms of the whole text and of the path -/

theorem SpelledPath.exists_pieces {path : Text} (h : SpelledPath path) :
    ∃ (front : List Text) (name : FileName), path.splitOn '/' = front ++ [name.text] ∧
      ∀ piece ∈ front, '/' ∉ piece := by
  obtain ⟨name, hname⟩ := h.file
  obtain ⟨front, hfront⟩ := List.getLast?_eq_some_iff.mp hname
  refine ⟨front, name, hfront, fun piece hpiece => ?_⟩
  exact not_mem_of_mem_splitOn '/' path piece (by simp [hfront, hpiece])

theorem SpelledPath.exists_normalize {path : Text} (h : SpelledPath path) :
    ∃ (front : List Text) (cs : List Component) (name : FileName),
      path.splitOn '/' = front ++ [name.text] ∧
      SameStack (front.foldl (pushPiece false) []) cs ∧
      normalize (components path) = cs ++ [.normal name] := by
  obtain ⟨front, name, hpieces, hslash⟩ := h.exists_pieces
  have hempty : SameStack [] [] := ⟨rfl, by simp⟩
  have hstack := hempty.foldl hslash
  refine ⟨front, _, name, hpieces, hstack, ?_⟩
  have hfold : (components path).foldl pushComponent [] =
      (front.filterMap component).foldl pushComponent [] ++ [.normal name] := by
    rw [components, if_neg h.relative, hpieces, List.filterMap_append]
    split <;> simp [component_of_file, pushComponent]
  rcases normalize_cases (components path) with ⟨hnil, -⟩ | ⟨-, hnormalize⟩
  · simp [hnil] at hfold
  · rw [hnormalize, hfold]

theorem displayPath_of_relative {cs : List Component} (h : ∀ c ∈ cs, c ≠ .rootDir) :
    displayPath cs = ['/'].intercalate (cs.map Component.text) := by
  cases cs with
  | nil => rfl
  | cons c rest =>
      cases c with
      | rootDir => exact absurd rfl (h _ (by simp))
      | curDir => rfl
      | parentDir => rfl
      | normal name => rfl

theorem intercalate_concat_append (words : List Text) (word suffix : Text) :
    ['/'].intercalate (words ++ [word]) ++ suffix =
      ['/'].intercalate (words ++ [word ++ suffix]) := by
  cases words with
  | nil => simp
  | cons first words =>
      rw [intercalate_concat (by simp), intercalate_concat (by simp)]
      simp

theorem slash_not_mem_lineSuffix (line : UInt32) : '/' ∉ lineSuffix line := by
  intro h
  rcases List.mem_cons.mp h with h | h
  · simp at h
  · exact digit_not_mem_lineText (by decide) _ h

theorem splitOn_spelling {path : Text} {front : List Text} {name : FileName} (line : UInt32)
    (h : path.splitOn '/' = front ++ [name.text]) (hslash : ∀ piece ∈ front, '/' ∉ piece) :
    (spelling path line).splitOn '/' = front ++ [name.text ++ lineSuffix line] := by
  have hpath : path = ['/'].intercalate (front ++ [name.text]) := by
    rw [← h, List.intercalate_splitOn]
  rw [spelling, hpath, intercalate_concat_append, List.splitOn_intercalate '/' _ (by simp)]
  intro piece hpiece
  rcases List.mem_append.mp hpiece with hpiece | hpiece
  · exact hslash piece hpiece
  · obtain rfl := List.mem_singleton.mp hpiece
    simpa using ⟨name.noSlash, slash_not_mem_lineSuffix line⟩

theorem normpath_spelling {path : Text} (h : SpelledPath path) (line : UInt32) :
    normpath (spelling path line) =
      displayPath (normalize (components path)) ++ lineSuffix line := by
  obtain ⟨front, cs, name, hpieces, hstack, hnormalize⟩ := h.exists_normalize
  have hslash : ∀ piece ∈ front, '/' ∉ piece := fun piece hpiece =>
    not_mem_of_mem_splitOn '/' path piece (by simp [hpieces, hpiece])
  have hslashes : initialSlashes (spelling path line) = [] := by
    cases hpath : path with
    | nil => rfl
    | cons c rest =>
        have hc : c ≠ '/' := by
          rintro rfl
          exact h.relative (by simp [hpath])
        simp [spelling, initialSlashes, hc]
  have hlast : ProperPiece (name.text ++ lineSuffix line) := properPiece_append_colon name.text _
  have hdisplay : displayPath (cs ++ [.normal name]) =
      ['/'].intercalate (cs.map Component.text ++ [name.text]) := by
    rw [displayPath_of_relative]
    · simp [Component.text]
    · intro c hc
      rcases List.mem_append.mp hc with hc | hc
      · exact (hstack.relative c hc).1
      · obtain rfl := List.mem_singleton.mp hc
        simp
  have hne : ['/'].intercalate (cs.map Component.text ++ [name.text]) ++ lineSuffix line ≠ [] := by
    simp [lineSuffix]
  have hstackText : (pushPiece false (front.foldl (pushPiece false) [])
      (name.text ++ lineSuffix line)).reverse =
        cs.map Component.text ++ [name.text ++ lineSuffix line] := by
    rw [pushPiece_proper _ _ hlast, List.reverse_cons, hstack.texts]
  rw [hnormalize, hdisplay]
  rw [intercalate_concat_append] at hne ⊢
  simp only [normpath, hslashes, splitOn_spelling line hpieces hslash, List.foldl_concat,
    ne_eq, not_true, decide_false, hstackText, List.nil_append]

/-! ## The key of `smatcher` -/

theorem locationKey_spelling (path : Text) (line : UInt32) :
    locationKey (spelling path line) = normpath (spelling (path.dropWhile isDotSlash) line) := by
  obtain ⟨digits, last, hdigits⟩ :=
    (List.eq_nil_or_concat (Nat.toDigits 10 line.toNat)).resolve_left Nat.toDigits_ne_nil
  have hlast : last.isDigit = true :=
    Nat.isDigit_of_mem_toDigits (b := 10) (n := line.toNat) (by decide) (by decide)
      (by simp [hdigits])
  have hspelling : spelling path line = (path ++ ':' :: digits) ++ [last] := by
    simp [spelling, lineSuffix, hdigits]
  have hdot : isDotSlash last = false := by
    have h₁ : last ≠ '.' := by rintro rfl; simp [Char.isDigit] at hlast
    have h₂ : last ≠ '/' := by rintro rfl; simp [Char.isDigit] at hlast
    simp [isDotSlash, h₁, h₂]
  rw [locationKey_eq_normpath hspelling hdot, spelling, lineSuffix,
    dropWhile_append_cons_neg path _ (by decide)]
  rfl

theorem getLast?_splitOn {front last : Text} (h : '/' ∉ last) :
    ((front ++ '/' :: last).splitOn '/').getLast? = some last := by
  rw [List.splitOn_append_cons_self, List.splitOn_eq_singleton h, List.getLast?_concat]

theorem SpelledPath.dropWhile {path : Text} (h : SpelledPath path)
    (hne : path.dropWhile isDotSlash ≠ []) : SpelledPath (path.dropWhile isDotSlash) := by
  have hhead := head?_dropWhile_isDotSlash path
  have hsuffix := List.dropWhile_suffix (l := path) isDotSlash
  refine ⟨fun hslash => ?_, fun hcolon => h.noColon (hsuffix.subset hcolon), ?_⟩
  · exact absurd (hhead '/' hslash) (by decide)
  · generalize path.dropWhile isDotSlash = rest at hne hhead hsuffix ⊢
    obtain ⟨front, rfl⟩ := hsuffix
    by_cases hslash : '/' ∈ rest
    · obtain ⟨init, last, rfl, hlast⟩ := exists_last_of_mem hslash
      obtain ⟨name, hname⟩ := h.file
      rw [← List.append_assoc, getLast?_splitOn hlast] at hname
      exact ⟨name, by rw [getLast?_splitOn hlast, hname]⟩
    · obtain ⟨c, rest, rfl⟩ := List.exists_cons_of_ne_nil hne
      have hc : isDotSlash c = false := hhead c rfl
      have hdot : c ≠ '.' := by
        rintro rfl
        simp [isDotSlash] at hc
      exact ⟨⟨c :: rest, ⟨by simp, by simp [hdot], by simp [hdot]⟩, hslash⟩,
        by rw [List.splitOn_eq_singleton hslash]; rfl⟩

theorem component_text_injective : Function.Injective Component.text := by
  have hname : ∀ name : FileName, ∀ c : Component, name.text = c.text → .normal name = c := by
    intro name c hc
    cases c with
    | rootDir => exact absurd (by simp [hc, Component.text]) name.noSlash
    | curDir => exact absurd hc name.proper.2.1
    | parentDir => exact absurd hc name.proper.2.2
    | normal name' => exact congrArg Component.normal (FileName.ext hc)
  intro a b h
  cases a with
  | normal name => exact hname name b h
  | rootDir | curDir | parentDir =>
      cases b with
      | normal name => exact (hname name _ h.symm).symm
      | rootDir | curDir | parentDir => simp_all [Component.text]

theorem component_text_ne_nil (c : Component) : c.text ≠ [] := by
  cases c with
  | normal name => exact name.proper.1
  | rootDir | curDir | parentDir => simp [Component.text]

theorem SpelledPath.displayPath_normalize {path : Text} (h : SpelledPath path) :
    ∃ cs : List Component, normalize (components path) = cs ∧ cs ≠ [] ∧
      (∀ c ∈ cs, '/' ∉ c.text) ∧
      displayPath cs = ['/'].intercalate (cs.map Component.text) := by
  obtain ⟨front, cs, name, -, hstack, hnormalize⟩ := h.exists_normalize
  have hrelative : ∀ c ∈ cs ++ [.normal name], c ≠ .rootDir := by
    intro c hc
    rcases List.mem_append.mp hc with hc | hc
    · exact (hstack.relative c hc).1
    · obtain rfl := List.mem_singleton.mp hc
      simp
  refine ⟨cs ++ [.normal name], hnormalize, by simp, fun c hc => ?_,
    displayPath_of_relative hrelative⟩
  cases c with
  | rootDir => exact absurd rfl (hrelative _ hc)
  | curDir => decide
  | parentDir => decide
  | normal name => exact name.noSlash

theorem displayPath_inj {path path' : Text} (h : SpelledPath path) (h' : SpelledPath path') :
    displayPath (normalize (components path)) = displayPath (normalize (components path')) ↔
      normalize (components path) = normalize (components path') := by
  refine ⟨fun hdisplay => ?_, fun hnormalize => by rw [hnormalize]⟩
  obtain ⟨cs, hcs, hne, hslash, htext⟩ := h.displayPath_normalize
  obtain ⟨cs', hcs', hne', hslash', htext'⟩ := h'.displayPath_normalize
  rw [hcs, hcs', htext, htext'] at hdisplay
  have hpieces := congrArg (List.splitOn '/') hdisplay
  rw [List.splitOn_intercalate '/' (by simpa using hslash) (by simpa using hne),
    List.splitOn_intercalate '/' (by simpa using hslash') (by simpa using hne')] at hpieces
  rw [hcs, hcs']
  exact List.map_injective_iff.mpr component_text_injective hpieces

/-! ## Agreement -/

/-- What `fast_matcher` prints for a location. -/
def displayKey (location : Text) : Option Text :=
  (LineInfo.fromString location).map LineInfo.display

theorem displayKey_spelling {path : Text} (h : SpelledPath path) (line : UInt32) :
    displayKey (spelling path line) =
      some (displayPath (normalize (components path)) ++ lineSuffix line) := by
  rw [displayKey, fromString_spelling h.noColon]
  rfl

/-- Without a name the stripped path leads nowhere. -/
theorem not_stripHarmless {path : Text} (h : SpelledPath path)
    (hnil : path.dropWhile isDotSlash = []) : ¬ StripHarmless path := by
  intro hstrip
  obtain ⟨front, cs, name, -, -, hnormalize⟩ := h.exists_normalize
  have hbase := hstrip []
  rw [hnil, ← resolve_normalize (rootFirst_components path), hnormalize, resolve_append] at hbase
  simp [components, component, resolve, resolveComponent] at hbase

theorem locationKey_eq_display_iff {path : Text} (h : SpelledPath path) (line : UInt32) :
    some (locationKey (spelling path line)) = displayKey (spelling path line) ↔
      StripHarmless path := by
  rw [displayKey_spelling h, Option.some.injEq, locationKey_spelling]
  by_cases hnil : path.dropWhile isDotSlash = []
  · refine iff_of_false (fun hkey => ?_) (not_stripHarmless h hnil)
    obtain ⟨cs, hcs, hne, -, htext⟩ := h.displayPath_normalize
    have hproper : ∀ piece ∈ (spelling [] line).splitOn '/', ProperPiece piece := by
      rw [spelling, List.nil_append, List.splitOn_eq_singleton (slash_not_mem_lineSuffix line)]
      intro piece hpiece
      obtain rfl := List.mem_singleton.mp hpiece
      exact properPiece_append_colon [] _
    rw [hnil, normpath_of_proper hproper, hcs, htext, spelling, List.append_left_inj,
      eq_comm, intercalate_eq_nil_iff _ (by simp [component_text_ne_nil])] at hkey
    exact hne (List.map_eq_nil_iff.mp hkey)
  · have hrest := h.dropWhile hnil
    rw [normpath_spelling hrest, List.append_cancel_right_eq, displayPath_inj hrest h,
      normalize_eq_iff_resolve (rootFirst_components _) (rootFirst_components _)]
    rfl

theorem displayKey_eq_iff {path path' : Text} (h : SpelledPath path) (h' : SpelledPath path')
    (line line' : UInt32) :
    displayKey (spelling path line) = displayKey (spelling path' line') ↔
      LineInfo.fromString (spelling path line) = LineInfo.fromString (spelling path' line') := by
  refine ⟨fun hdisplay => ?_, fun hlocation => by rw [displayKey, displayKey, hlocation]⟩
  rw [displayKey_spelling h, displayKey_spelling h', Option.some.injEq] at hdisplay
  obtain ⟨hpath, hdigits⟩ := last_unique (digit_not_mem_lineText (by decide) _)
    (digit_not_mem_lineText (by decide) _) hdisplay
  have hline : line = line' := by
    have hparse := congrArg parseU32 hdigits
    rw [parseU32_toDigits, parseU32_toDigits] at hparse
    exact Option.some.inj hparse
  rw [fromString_spelling h.noColon, fromString_spelling h'.noColon, LineInfo.new, LineInfo.new,
    (displayPath_inj h h').mp hpath, hline]

/--
Both tools give a location one key exactly if stripping does not change where the
path leads.  Such locations are one for either tool or for none.
-/
theorem keys_agree_iff {path path' : Text} (h : SpelledPath path) (h' : SpelledPath path')
    (line line' : UInt32) :
    (some (locationKey (spelling path line)) = displayKey (spelling path line) ↔
        StripHarmless path) ∧
      (StripHarmless path → StripHarmless path' →
        (locationKey (spelling path line) = locationKey (spelling path' line') ↔
          LineInfo.fromString (spelling path line) =
            LineInfo.fromString (spelling path' line'))) := by
  have hkey := locationKey_eq_display_iff h line
  have hkey' := locationKey_eq_display_iff h' line'
  refine ⟨hkey, fun hstrip hstrip' => ?_⟩
  rw [← displayKey_eq_iff h h', ← hkey.mpr hstrip, ← hkey'.mpr hstrip', Option.some.injEq]

theorem spelledPath_dotted : SpelledPath "./a/../b.c".toList where
  relative := by decide
  noColon := by decide
  file := ⟨⟨"b.c".toList, by decide, by decide⟩, by decide⟩

theorem spelledPath_plain : SpelledPath "b.c".toList where
  relative := by decide
  noColon := by decide
  file := ⟨⟨"b.c".toList, by decide, by decide⟩, by decide⟩

theorem keys_agree_dotted :
    some (locationKey (spelling "./a/../b.c".toList 5)) =
        displayKey (spelling "./a/../b.c".toList 5) ↔ StripHarmless "./a/../b.c".toList :=
  (keys_agree_iff spelledPath_dotted spelledPath_plain 5 5).1

theorem spelledPath_parent : SpelledPath "../b.c".toList where
  relative := by decide
  noColon := by decide
  file := ⟨⟨"b.c".toList, by decide, by decide⟩, by decide⟩

/-- `../b.c:5` and `b.c:5` are two locations for `fast_matcher` and one for `smatcher`. -/
theorem parent_keys_differ :
    SpelledPath "../b.c".toList ∧ SpelledPath "b.c".toList ∧
      some (locationKey (spelling "../b.c".toList 5)) ≠ displayKey (spelling "../b.c".toList 5) ∧
      locationKey (spelling "../b.c".toList 5) = locationKey (spelling "b.c".toList 5) ∧
      LineInfo.fromString (spelling "../b.c".toList 5) ≠
        LineInfo.fromString (spelling "b.c".toList 5) := by
  refine ⟨spelledPath_parent, spelledPath_plain, ?_, ?_, ?_⟩ <;> decide +kernel

end TdvfFuzz.Smatcher
