import TdvfFuzz.FastMatcher.Path
import TdvfFuzz.Smatcher.Aggregate
import TdvfFuzz.Smatcher.Listing
import TdvfFuzz.Smatcher.Normpath

/-!
# From printed hits to coverage

`smatcher` reads back the lines that `fast_matcher` prints, as far as their
paths consist of characters of its pattern and do not start with a dot.
-/

namespace TdvfFuzz.Smatcher

open TdvfFuzz.Foundation TdvfFuzz.FastMatcher

/-! ## Locations as a report writes them -/

variable {word : WordClass}

/-- A normalized relative path without `..`, in characters that a report admits. -/
structure Plain (hit : LineInfo) : Prop where
  relative : hit.path = [.curDir] ∨
    hit.path ≠ [] ∧ ∀ c ∈ hit.path, ∃ name, c = .normal name
  chars : ∀ c ∈ displayPath hit.path, isSpace c = false ∧ c ≠ ':'

def lineText (hit : LineInfo) : Text := Nat.toDigits 10 hit.line.toNat

theorem display_eq (hit : LineInfo) :
    hit.display = displayPath hit.path ++ ':' :: lineText hit := rfl

theorem display_append (hit : LineInfo) (s : Text) :
    hit.display ++ s = displayPath hit.path ++ ':' :: (lineText hit ++ s) := by
  simp [display_eq]

theorem isDecimal_of_mem_lineText {hit : LineInfo} {c : Char} (h : c ∈ lineText hit) :
    isDecimal c = true :=
  Nat.isDigit_of_mem_toDigits (by decide) (by decide) h

theorem lineText_ne_nil (hit : LineInfo) : lineText hit ≠ [] :=
  Nat.toDigits_ne_nil

theorem Plain.displayPath_eq {hit : LineInfo} (h : Plain hit) :
    displayPath hit.path = ['/'].intercalate (hit.path.map Component.text) := by
  rcases h.relative with hpath | ⟨hne, hnames⟩
  · rw [hpath]
    rfl
  · cases hpath : hit.path with
    | nil => contradiction
    | cons c rest =>
        obtain ⟨name, rfl⟩ := hnames c (by simp [hpath])
        rfl

theorem mem_splitOn_intercalate {t piece : Text} (ht : '/' ∉ t) :
    ∀ {cs : List Text}, cs ≠ [] → (∀ c ∈ cs, '/' ∉ c) →
      piece ∈ (['/'].intercalate cs ++ t).splitOn '/' →
      piece ∈ cs.dropLast ∨ ∃ c ∈ cs, piece = c ++ t
  | [c], _, hcs, h => by
      have hc : '/' ∉ c ++ t := by simp [hcs c (by simp), ht]
      rw [List.intercalate_singleton, List.splitOn_eq_singleton hc] at h
      exact .inr ⟨c, by simp, by simpa using h⟩
  | c :: c' :: rest, _, hcs, h => by
      have htext : ['/'].intercalate (c :: c' :: rest) ++ t =
          c ++ '/' :: (['/'].intercalate (c' :: rest) ++ t) := by
        simp [List.intercalate_cons_cons]
      rw [htext, splitOn_append_sep '/' c _ (hcs c (by simp))] at h
      rcases List.mem_cons.mp h with rfl | h
      · exact .inl (by simp)
      · rcases mem_splitOn_intercalate ht (by simp) (fun x hx => hcs x (by simp [hx])) h
          with h | ⟨x, hx, rfl⟩
        · exact .inl (by simp [h])
        · exact .inr ⟨x, by simp [hx], rfl⟩

theorem slash_not_mem_lineText (hit : LineInfo) : '/' ∉ ':' :: lineText hit := by
  intro h
  rcases List.mem_cons.mp h with h | h
  · simp at h
  · exact absurd (isDecimal_of_mem_lineText h) (by decide)

theorem Plain.proper_pieces {hit : LineInfo} (h : Plain hit) :
    ∀ piece ∈ hit.display.splitOn '/', ProperPiece piece := by
  intro piece hpiece
  have hne : hit.path.map Component.text ≠ [] := by
    rcases h.relative with hpath | ⟨hne, -⟩
    · simp [hpath]
    · simpa using hne
  have hslash : ∀ c ∈ hit.path.map Component.text, '/' ∉ c := by
    intro c hc
    obtain ⟨comp, hcomp, rfl⟩ := List.mem_map.mp hc
    rcases h.relative with hpath | ⟨-, hnames⟩
    · obtain rfl : comp = .curDir := by simpa [hpath] using hcomp
      decide
    · obtain ⟨name, rfl⟩ := hnames comp hcomp
      exact name.noSlash
  rw [display_eq, h.displayPath_eq] at hpiece
  rcases mem_splitOn_intercalate (slash_not_mem_lineText hit) hne hslash hpiece with
    hfront | ⟨c, -, rfl⟩
  · rcases h.relative with hpath | ⟨-, hnames⟩
    · simp [hpath] at hfront
    · obtain ⟨comp, hcomp, rfl⟩ := List.mem_map.mp (List.mem_of_mem_dropLast hfront)
      obtain ⟨name, rfl⟩ := hnames comp hcomp
      exact name.proper
  · exact properPiece_append_colon c _

theorem Plain.locationKey_display {hit : LineInfo} (h : Plain hit) :
    locationKey hit.display = hit.display.dropWhile isDotSlash := by
  obtain ⟨digits, last, hdigits⟩ :=
    List.eq_nil_or_concat (lineText hit) |>.resolve_left (lineText_ne_nil hit)
  have hlast : isDecimal last = true :=
    isDecimal_of_mem_lineText (show last ∈ lineText hit by simp [hdigits])
  have hdisplay : hit.display = (displayPath hit.path ++ ':' :: digits) ++ [last] := by
    simp [display_eq, hdigits]
  refine locationKey_eq hdisplay ?_ h.proper_pieces
  have h₁ : last ≠ '.' := by rintro rfl; simp [isDecimal, Char.isDigit] at hlast
  have h₂ : last ≠ '/' := by rintro rfl; simp [isDecimal, Char.isDigit] at hlast
  simp [isDotSlash, h₁, h₂]

theorem Plain.displayPath_ne_nil {hit : LineInfo} (h : Plain hit) :
    displayPath hit.path ≠ [] := by
  intro hnil
  have hpiece := h.proper_pieces
  rcases h.relative with hpath | ⟨hne, hnames⟩
  · simp [hpath, displayPath, Component.text] at hnil
  · cases hpath : hit.path with
    | nil => contradiction
    | cons c rest =>
        obtain ⟨name, rfl⟩ := hnames c (by simp [hpath])
        rw [h.displayPath_eq, hpath] at hnil
        cases rest with
        | nil => exact name.proper.1 (by simpa [Component.text] using hnil)
        | cons c' rest =>
            simp [List.intercalate_cons_cons] at hnil

/-! ## The whole text -/

def pathCharsOnly (word : WordClass) (hit : LineInfo) : Prop :=
  ∀ c ∈ displayPath hit.path, word.isPathChar c = true

theorem scanFrom_lines (word : WordClass) (hits : List LineInfo) (before : Option Char)
    (hplain : ∀ hit ∈ hits, Plain hit) (hchars : ∀ hit ∈ hits, pathCharsOnly word hit) :
    (Regex.scanFrom (coveragePattern word) 0 before
      (hits.flatMap fun hit => hit.display ++ ['\n'])).map Match.consumed =
      hits.map LineInfo.display := by
  induction hits generalizing before with
  | nil => rfl
  | cons hit rest ih =>
      have hfirst := first_line word before
        ('\n' :: rest.flatMap fun hit => hit.display ++ ['\n']) (hchars hit (by simp))
        (hplain hit (by simp)).displayPath_ne_nil (fun c hc => isDecimal_of_mem_lineText hc)
        (lineText_ne_nil hit) (by simp [isDecimal, Char.isDigit])
      rw [← display_append, ← display_eq] at hfirst
      have hscan := Regex.scanFrom_of_first hfirst (by simp [display_eq])
      have htext : (hit :: rest).flatMap (fun hit => hit.display ++ ['\n']) =
          hit.display ++ '\n' :: rest.flatMap fun hit => hit.display ++ ['\n'] := by
        simp
      rw [htext, hscan, List.map_cons, scanFrom_other _ _ isPathChar_newline,
        ih _ (fun x hx => hplain x (by simp [hx])) (fun x hx => hchars x (by simp [hx]))]
      rfl

theorem mem_sorted {hits : Finset LineInfo} {hit : LineInfo} :
    hit ∈ sorted hits ↔ hit ∈ hits := Finset.mem_sort _

theorem parseLineCoverage_printHits (hits : Finset LineInfo)
    (hplain : ∀ hit ∈ hits, Plain hit) (hchars : ∀ hit ∈ hits, pathCharsOnly word hit) :
    parseLineCoverage word (printHits hits) =
      hits.image fun hit => hit.display.dropWhile isDotSlash := by
  have hscan := scanFrom_lines word (sorted hits) none
    (fun hit h => hplain hit (mem_sorted.mp h)) (fun hit h => hchars hit (mem_sorted.mp h))
  ext line
  have hmap : ((coveragePattern word).findall (printHits hits)).map
      (fun m => locationKey m.consumed) =
      (sorted hits).map fun hit => locationKey hit.display := by
    have := congrArg (List.map locationKey) hscan
    simpa [Regex.findall, printHits, Function.comp_def] using this
  rw [parseLineCoverage, hmap, List.mem_toFinset, List.mem_map, Finset.mem_image]
  constructor
  · rintro ⟨hit, hhit, rfl⟩
    have hmem := mem_sorted.mp hhit
    exact ⟨hit, hmem, ((hplain hit hmem).locationKey_display).symm⟩
  · rintro ⟨hit, hhit, rfl⟩
    exact ⟨hit, mem_sorted.mpr hhit, (hplain hit hhit).locationKey_display⟩

theorem isPathChar_of_mem_parse {s line : Text} {c : Char}
    (hline : line ∈ parseLineCoverage word s) (hc : c ∈ line) :
    word.isPathChar c = true ∨ c = ':' := by
  obtain ⟨m, hm, rfl⟩ := List.mem_map.mp (List.mem_toFinset.mp hline)
  have hdots : ∀ d, d = '.' ∨ d = '/' → word.isPathChar d = true := by
    rintro d (rfl | rfl) <;> simp [WordClass.isPathChar]
  rcases mem_locationKey hc with hc | hc
  · obtain ⟨pre, last, hs, haccepts⟩ := Regex.mem_findall hm
    obtain ⟨path, digits, hw, hpath, hdigits, -⟩ := coverage_accepts haccepts
    rw [hw, List.mem_append, List.mem_cons] at hc
    rcases hc with hc | rfl | hc
    · exact .inl (hpath c hc)
    · exact .inr rfl
    · exact .inl (isPathChar_of_isDecimal (hdigits c hc))
  · exact .inl (hdots c hc)

/-! ## The round trip -/

/-- Exactly the printed locations are read back, and cover exactly their entries. -/
structure RoundTrip (word : WordClass) (hits : Finset LineInfo) : Prop where
  lines : parseLineCoverage word (printHits hits) = hits.image LineInfo.display
  entries : ∀ (sm : Finset Entry) (e : Entry),
    e ∈ (parseLineCoverage word (printHits hits)).biUnion (smMap sm) ↔
      e ∈ sm ∧ ∃ hit ∈ hits, hit.display = e.location

/-- The path has only `[\w./]` characters and does not start with a dot. -/
def ReadBack (word : WordClass) (hit : LineInfo) : Prop :=
  pathCharsOnly word hit ∧ (displayPath hit.path).head? ≠ some '.'

theorem roundTrip_of_lines {hits : Finset LineInfo}
    (h : parseLineCoverage word (printHits hits) = hits.image LineInfo.display) :
    RoundTrip word hits where
  lines := h
  entries sm e := by rw [h, mem_biUnion_smMap, Finset.mem_image]

theorem Plain.head?_display {hit : LineInfo} (h : Plain hit) :
    hit.display.head? = (displayPath hit.path).head? := by
  cases hpath : displayPath hit.path with
  | nil => exact absurd hpath h.displayPath_ne_nil
  | cons c rest => simp [display_eq, hpath]

theorem Plain.head?_ne_slash {hit : LineInfo} (h : Plain hit) :
    (displayPath hit.path).head? ≠ some '/' := by
  intro hhead
  rw [← h.head?_display, List.head?_eq_some_iff] at hhead
  obtain ⟨rest, hrest⟩ := hhead
  have hproper := h.proper_pieces
  rw [hrest] at hproper
  have hsplit := splitOn_append_sep '/' [] rest (by simp)
  exact (hproper [] (by rw [List.nil_append] at hsplit; simp [hsplit])).1 rfl

theorem roundTrip_iff (word : WordClass) (hits : Finset LineInfo)
    (hplain : ∀ hit ∈ hits, Plain hit) :
    RoundTrip word hits ↔ ∀ hit ∈ hits, ReadBack word hit := by
  constructor
  · intro h
    have hchars : ∀ hit ∈ hits, pathCharsOnly word hit := by
      intro hit hhit c hc
      have hline : hit.display ∈ parseLineCoverage word (printHits hits) := by
        rw [h.lines]
        exact Finset.mem_image_of_mem _ hhit
      exact (isPathChar_of_mem_parse hline (by simp [display_eq, hc])).resolve_right
        ((hplain hit hhit).chars c hc).2
    refine fun hit hhit => ⟨hchars hit hhit, fun hdot => ?_⟩
    have hline : hit.display ∈ hits.image LineInfo.display :=
      Finset.mem_image_of_mem _ hhit
    rw [← h.lines, parseLineCoverage_printHits hits hplain hchars, Finset.mem_image] at hline
    obtain ⟨other, -, hother⟩ := hline
    have hhead := List.head?_dropWhile_not isDotSlash other.display
    rw [hother, (hplain hit hhit).head?_display, hdot] at hhead
    simp [isDotSlash] at hhead
  · intro h
    apply roundTrip_of_lines
    rw [parseLineCoverage_printHits hits hplain fun hit hhit => (h hit hhit).1]
    refine Finset.image_congr fun hit hhit => ?_
    have hplainHit := hplain hit hhit
    cases hdisplay : hit.display with
    | nil => simp [display_eq] at hdisplay
    | cons c rest =>
        have hhead : (displayPath hit.path).head? = some c := by
          rw [← hplainHit.head?_display, hdisplay]
          rfl
        have h₁ : c ≠ '.' := fun hc => (h hit hhit).2 (hc ▸ hhead)
        have h₂ : c ≠ '/' := fun hc => hplainHit.head?_ne_slash (hc ▸ hhead)
        simp [isDotSlash, h₁, h₂]

def libHit : LineInfo :=
  ⟨[.normal ⟨"lib".toList, by decide, by decide⟩,
    .normal ⟨"x.c".toList, by decide, by decide⟩], 7⟩

theorem roundTrip_iff_libHit :
    RoundTrip asciiWord {libHit} ↔ ∀ hit ∈ ({libHit} : Finset LineInfo),
      ReadBack asciiWord hit :=
  roundTrip_iff asciiWord {libHit} (by
    intro hit hhit
    obtain rfl : hit = libHit := by simpa using hhit
    exact ⟨.inr ⟨by simp [libHit], by simp [libHit]⟩,
      by simp [libHit, displayPath, Component.text, isSpace]⟩)

def rtcHit : LineInfo :=
  ⟨[.normal ⟨"drivers".toList, by decide, by decide⟩,
    .normal ⟨"rtc".toList, by decide, by decide⟩,
    .normal ⟨"rtc-mc146818-lib.c".toList, by decide, by decide⟩], 12⟩

/-- A hyphen ends the path, so only the end of this line is read back. -/
theorem rtcHit_truncated :
    parseLineCoverage asciiWord (printHits {rtcHit}) = {"lib.c:12".toList} ∧
    ¬ RoundTrip asciiWord {rtcHit} := by
  have htext : printHits {rtcHit} =
      "drivers/rtc/rtc-mc146818-lib.c:12\n".toList := by
    simp only [printHits, sorted, Finset.sort_singleton]
    decide +kernel
  have hparse : parseLineCoverage asciiWord (printHits {rtcHit}) =
      {"lib.c:12".toList} := by
    rw [htext]
    decide +kernel
  refine ⟨hparse, fun h => ?_⟩
  have hlines := h.lines
  rw [hparse] at hlines
  exact absurd hlines (by decide +kernel)

end TdvfFuzz.Smatcher
