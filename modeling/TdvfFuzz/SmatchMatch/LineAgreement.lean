import TdvfFuzz.SmatchMatch.Frames
import TdvfFuzz.Smatcher.Aggregate

/-!
# The two line matchers

`smatch_match.py` prints a line of the report if its location is a key of
`line2addr`, and `smatcher` counts an entry if its normalized location is
covered.  The key of a frame without a column lacks the line.
-/

namespace TdvfFuzz.SmatchMatch

open TdvfFuzz.Foundation
open TdvfFuzz.Smatcher

/-! ## Locations on the lines of a report -/

theorem linePattern_eq : linePattern = placePattern isSpace := rfl

theorem call_not_mem_location {site : Site} (hpath : '(' ∉ site.path) : '(' ∉ site.location := by
  simp only [Site.location, List.mem_append, List.mem_cons, not_or]
  exact ⟨hpath, by decide, fun h => absurd (site.digits '(' h) (by decide)⟩

theorem first_linePattern_word (site : Site) (hpath : '(' ∉ site.path) (before : Option Char)
    {x : Text} (tail : Text) (hx : ∀ c ∈ x, notSpace c = true) :
    linePattern.first before (x ++ '\t' :: (site.text ++ tail)) = none := by
  by_contra hfirst
  obtain ⟨m, hm⟩ := Option.ne_none_iff_exists'.mp hfirst
  obtain ⟨hs, haccepts⟩ := Regex.mem_of_first hm
  rw [linePattern_eq] at haccepts
  obtain ⟨path, line, d, func, hw, -, hd, hpathWords, -, hline, -, hfunc, -⟩ :=
    placePattern_accepts.mp haccepts
  have hsame : x ++ '\t' :: (site.text ++ tail) =
      (path ++ ':' :: line) ++ d :: (func ++ ['(', ')'] ++ m.rest) := by
    rw [hs, hw]
    simp
  obtain ⟨-, -, hrest⟩ := run_unique hx (run_location hpathWords hline) (by decide)
    (by simp [notSpace, hd]) hsame
  have hcall : func ++ ['(', ')'] <+: site.location := by
    rw [← prefix_append_cons_iff site.location (site.func ++ ['(', ')'] ++ tail)
      (blank_not_mem_call hfunc)]
    exact ⟨m.rest, by rw [← hrest]; simp [Site.text]⟩
  exact call_not_mem_location hpath (hcall.subset (by simp))

theorem first_linePattern_space (before : Option Char) (s : Text) {c : Char}
    (hc : isSpace c = true) : linePattern.first before (c :: s) = none := by
  by_contra hfirst
  obtain ⟨m, hm⟩ := Option.ne_none_iff_exists'.mp hfirst
  obtain ⟨hs, haccepts⟩ := Regex.mem_of_first hm
  rw [linePattern_eq] at haccepts
  obtain ⟨path, line, d, func, hw, -, -, hpath, hne, -⟩ := placePattern_accepts.mp haccepts
  obtain ⟨e, path, rfl⟩ := List.exists_cons_of_ne_nil hne
  rw [hw] at hs
  obtain ⟨rfl, -⟩ := List.cons.inj hs
  simpa [notSpace, hc] using hpath c (by simp)

theorem lineLocation_block (block : Block) (hpath : '(' ∉ block.site.path) (tail : Text) :
    lineLocation ((if block.status = [] then [] else block.status ++ ['\t']) ++
      (block.site.text ++ ' ' :: tail)) = some block.site.location := by
  have hfirst : ∀ before, linePattern.first before (block.site.text ++ ' ' :: tail) =
      some ⟨block.site.text, [block.site.location, block.site.func], ' ' :: tail⟩ := by
    intro before
    refine Regex.first_of_unique (block.site.place_accepts _ (by decide) before _) ?_
    intro w' rest' groups' hw haccepts
    exact block.site.place_unique _ (fun d hd => hd) hw haccepts
  rw [lineLocation, Regex.search_of_first (by simp [Site.text]) _ (hfirst _)]
  · rfl
  · intro a c b hab
    by_cases hstatus : block.status = []
    · simp [hstatus] at hab
    · rw [if_neg hstatus] at hab
      rcases List.eq_nil_or_concat b with rfl | ⟨b, d, rfl⟩
      · obtain ⟨-, hc⟩ := List.append_inj' hab rfl
        obtain rfl : '\t' = c := by simpa using hc
        exact first_linePattern_space _ _ (by decide)
      · have hab' : block.status ++ ['\t'] = (a ++ c :: b) ++ [d] := by simpa using hab
        obtain ⟨hstatus', hd⟩ := List.append_inj' hab' rfl
        obtain rfl : '\t' = d := by simpa using hd
        have hwords : ∀ e ∈ c :: b, notSpace e = true := fun e he =>
          block.status_words e (hstatus' ▸ List.mem_append_right a he)
        simpa using first_linePattern_word block.site hpath (Regex.lastOr none a) (' ' :: tail)
          hwords

def opening (block : Block) : Text :=
  (if block.status = [] then [] else block.status ++ ['\t']) ++ (block.site.text ++ [' '])

theorem opening_chars (block : Block) :
    ∀ c ∈ opening block, c ≠ '\r' ∧ isLineBreak c = false := by
  have hwords : ∀ {w : Text}, (∀ c ∈ w, notSpace c = true) →
      ∀ c ∈ w, c ≠ '\r' ∧ isLineBreak c = false := fun h c hc =>
    not_lineBreak (.inr (by simpa [notSpace] using h c hc))
  have hstatus : ∀ c ∈ (if block.status = [] then [] else block.status ++ ['\t']),
      c ≠ '\r' ∧ isLineBreak c = false := by
    split
    · simp
    · rw [List.forall_mem_append]
      exact ⟨hwords block.status_words, by decide⟩
  have htext : block.site.text =
      block.site.location ++ [' '] ++ (block.site.func ++ ['(', ')']) := by
    simp [Site.text]
  rw [opening, htext]
  simp only [List.forall_mem_append]
  exact ⟨hstatus, ⟨⟨hwords block.site.location_words, by decide⟩,
    hwords fun c hc => block.site.func_words c (by simp [hc]), by decide⟩, by decide⟩

theorem exists_text_eq (block : Block) : ∃ v, block.text = opening block ++ v :=
  ⟨block.rest ++ block.detail, by simp [Block.text, opening]⟩

theorem named_of_mem {stop : Text} {blocks : List Block} {block : Block} (h : block ∈ blocks)
    (hpath : '(' ∉ block.site.path) : Named (reportText stop blocks) block.site.location := by
  have hne : opening block ≠ [] := by simp [opening]
  have hlines : ∀ v, ∃ line ∈ linesAt isLineBreak (opening block ++ v),
      lineLocation line = some block.site.location := by
    intro v
    obtain ⟨x, rest, heq⟩ := exists_line v hne (opening_chars block)
    refine ⟨opening block ++ x, by simp [heq], ?_⟩
    simpa [opening] using lineLocation_block block hpath x
  obtain ⟨before, after, rfl⟩ := List.append_of_mem h
  obtain ⟨v, hv⟩ := exists_text_eq block
  have htext : reportText stop (before ++ block :: after) =
      reportText stop before ++
        (opening block ++ (v ++ stop ++ '\n' :: reportText stop after)) := by
    simp [reportText, hv]
  rw [Named, splitlines, htext]
  rcases List.eq_nil_or_concat before with rfl | ⟨before, last, rfl⟩
  · exact hlines _
  · -- the blocks in front of it end with a newline
    have hfront : reportText stop (before.concat last) =
        (reportText stop before ++ last.text ++ stop) ++ ['\n'] := by
      simp [reportText]
    rw [hfront, List.append_assoc, List.singleton_append, linesAt_append_newline _ _ (by decide)]
    obtain ⟨line, hline, hlocation⟩ := hlines (v ++ stop ++ '\n' :: reportText stop after)
    exact ⟨line, List.mem_append_right _ hline, hlocation⟩

/-! ## The two runs -/

/-- `smatch_match.py` and `smatcher` read the same listing and the same report. -/
structure SameInput (args : Args) (fs : FileSystem)
    (defaultSmatchFile workDir listed report : Text) : Prop where
  isDir : fs.isDir (tracesDir workDir) = true
  listing : fs.contents (addr2lineFile (tracesDir workDir)) = some (.decoded listed)
  report : ∃ file, chooseSmatchFile fs defaultSmatchFile workDir = .ok file ∧
    fs.contents file = some (.decoded report) ∧ args.smatch = some file ∧ file ≠ []
  inputItems : args.inputItems = [addr2lineFile (tracesDir workDir)]
  load : args.load = false
  save : args.save = false

section

variable {word : WordClass} {args : Args} {fs : FileSystem}
  {defaultSmatchFile workDir listed report : Text}

theorem SameInput.start_eq (h : SameInput args fs defaultSmatchFile workDir listed report)
    (db : CoverageDb) : start word args fs db =
      .ok (⟨parseSmatch report,
        (parseLineCoverage word listed).biUnion (smMap (parseSmatch report))⟩, db) := by
  obtain ⟨file, -, hreport, hsmatch, hne⟩ := h.report
  have hcoverage : tryGetCoverage word args fs (addr2lineFile (tracesDir workDir)) =
      .ok (parseLineCoverage word listed) := by
    simp [tryGetCoverage, FileSystem.isFile, h.listing, parseLineCoverageFile, FileSystem.read]
  have hfile : tryFindSmatchFile args fs (addr2lineFile (tracesDir workDir)) = .ok (some file) := by
    simp [tryFindSmatchFile, givenSmatch, hsmatch, hne, Option.filter, FileSystem.isFile, hreport]
  simp [start, loadDb, h.load, h.save, h.inputItems, visitItems, visitItem, hcoverage, hfile,
    parseSmatchFile, FileSystem.read, hreport]

theorem SameInput.main_eq {frames : List (Frame word)}
    (h : SameInput args fs defaultSmatchFile workDir (SmatchMatch.listing frames) report) :
    ∃ traces : Addr2line,
      main fs defaultSmatchFile workDir = .ok (matchedLines traces (parseSmatchText report)) ∧
      ∀ l, traces.line2addr.getD l [] ≠ [] ↔ ∃ frame ∈ frames, frame.lino = l := by
  obtain ⟨file, hfile, hreport, -, -⟩ := h.report
  obtain ⟨traces, hfold, hkeys⟩ := line2addr_foldlM frames .initial
  have htraces : parseAddr2line fs (tracesDir workDir) = .ok traces := by
    simp [parseAddr2line, pathExists, FileSystem.isFile, h.listing, readText, splitlines_listing,
      hfold, Except.mapError]
  refine ⟨traces, ?_, fun l => ?_⟩
  · simp [main, h.isDir, hfile, htraces, readText, hreport]
  · rw [hkeys]
    simp [Addr2line.initial]

end

/-! ## Agreement -/

/-- A frame with a column stands at the location. -/
def Hit {word : WordClass} (frames : List (Frame word)) (l : Text) : Prop :=
  ∃ frame ∈ frames, frame.column.isSome = true ∧ frame.location = l

/-- The location is that of a block which `smatcher` takes as an entry. -/
def Kept (blocks : List Block) (l : Text) : Prop :=
  ∃ block ∈ blocks, block.entry.isSome = true ∧ block.site.location = l

/-- A line is printed for a location exactly if an entry there is counted as covered. -/
def Agree (blocks : List Block) (printed : List Text) (covered : Finset Entry) : Prop :=
  ∀ l, (∃ line ∈ printed, lineLocation line = some l) ↔
    ∃ block ∈ blocks, block.site.location = l ∧ ∃ e ∈ covered, block.entry = some e

/-- Columns where they matter, and no line that only one of the two tools reads. -/
structure ReadAlike {word : WordClass} (frames : List (Frame word)) (blocks : List Block) :
    Prop where
  kept : ∀ l, Named (reportText [] blocks) l → Hit frames l → Kept blocks l
  hit : ∀ l, Kept blocks l →
    (∃ frame ∈ frames, locationKey frame.location = locationKey l) → Hit frames l

section

variable {word : WordClass} {frames : List (Frame word)} {blocks : List Block}

theorem colon_mem_of_lineLocation {line l : Text} (h : lineLocation line = some l) : ':' ∈ l := by
  obtain ⟨m, hm, hl⟩ := Option.bind_eq_some_iff.mp h
  obtain ⟨pre, last, hs, haccepts⟩ := Regex.mem_findall (List.mem_of_mem_head? hm)
  rw [linePattern_eq] at haccepts
  obtain ⟨path, number, d, func, -, hgroups, -⟩ := placePattern_accepts.mp haccepts
  rw [hgroups] at hl
  obtain rfl : path ++ ':' :: number = l := by simpa using hl
  simp

/-- The key of a frame is a location if the frame has a column, and else only a path. -/
theorem lino_eq_iff {l : Text} (hl : ':' ∈ l) :
    (∃ frame ∈ frames, frame.lino = l) ↔ Hit frames l := by
  constructor
  · rintro ⟨frame, hframe, rfl⟩
    by_cases hcolumn : frame.column.isSome = true
    · exact ⟨frame, hframe, hcolumn, by rw [Frame.lino, if_pos hcolumn]⟩
    · rw [Frame.lino, if_neg hcolumn] at hl
      exact absurd hl frame.colon_not_mem_path
  · rintro ⟨frame, hframe, hcolumn, rfl⟩
    exact ⟨frame, hframe, by rw [Frame.lino, if_pos hcolumn]⟩

theorem printed_iff_hit {traces : Addr2line} {report l : Text}
    (hkeys : ∀ l, traces.line2addr.getD l [] ≠ [] ↔ ∃ frame ∈ frames, frame.lino = l) :
    (∃ line ∈ matchedLines traces (parseSmatchText report), lineLocation line = some l) ↔
      Named report l ∧ Hit frames l := by
  rw [printed_iff, hkeys]
  apply and_congr_right
  rintro ⟨line, -, hline⟩
  exact lino_eq_iff (colon_mem_of_lineLocation hline)

theorem counted_iff {l : Text} :
    (∃ block ∈ blocks, block.site.location = l ∧
      ∃ e ∈ (parseLineCoverage word (SmatchMatch.listing frames)).biUnion
        (smMap (parseSmatch (reportText [] blocks))), block.entry = some e) ↔
      Kept blocks l ∧ ∃ frame ∈ frames, locationKey frame.location = locationKey l := by
  have hcovered : ∀ e, e ∈ (parseLineCoverage word (SmatchMatch.listing frames)).biUnion
      (smMap (parseSmatch (reportText [] blocks))) ↔
      e ∈ blocks.filterMap Block.entry ∧
        ∃ frame ∈ frames, locationKey frame.location = e.location := by
    intro e
    rw [mem_biUnion_smMap, parseSmatch_reportText (by simp), parseLineCoverage_listing]
    simp
  constructor
  · rintro ⟨block, hblock, rfl, e, he, hentry⟩
    obtain ⟨-, frame, hframe, hkey⟩ := (hcovered e).mp he
    rw [Block.entry_location hentry] at hkey
    exact ⟨⟨block, hblock, by simp [hentry], rfl⟩, frame, hframe, hkey⟩
  · rintro ⟨⟨block, hblock, hsome, rfl⟩, frame, hframe, hkey⟩
    obtain ⟨e, hentry⟩ := Option.isSome_iff_exists.mp hsome
    refine ⟨block, hblock, rfl, e, (hcovered e).mpr ⟨?_, frame, hframe, ?_⟩, hentry⟩
    · exact List.mem_filterMap.mpr ⟨block, hblock, hentry⟩
    · rw [hkey, Block.entry_location hentry]

end

theorem line_matchers_agree_iff (word : WordClass) (frames : List (Frame word))
    (blocks : List Block) (args : Args) (fs : FileSystem) (defaultSmatchFile workDir : Text)
    (db : CoverageDb)
    (hpaths : ∀ block ∈ blocks, ∀ c ∈ block.site.path, word.isPathChar c = true)
    (hinput : SameInput args fs defaultSmatchFile workDir (SmatchMatch.listing frames)
      (reportText [] blocks)) :
    ∃ printed report, main fs defaultSmatchFile workDir = .ok printed ∧
      start word args fs db = .ok (report, db) ∧
      (Agree blocks printed report.covered ↔ ReadAlike frames blocks) := by
  obtain ⟨traces, hmain, hkeys⟩ := hinput.main_eq
  have hnamed : ∀ l, Kept blocks l → Named (reportText [] blocks) l := by
    rintro l ⟨block, hblock, -, rfl⟩
    refine named_of_mem hblock fun hcall => ?_
    have hother : word.isPathChar '(' = false :=
      isPathChar_eq_false (by decide) (by decide) (by decide)
    simpa [hother] using hpaths block hblock '(' hcall
  refine ⟨_, _, hmain, hinput.start_eq db, ?_⟩
  simp only [Agree, printed_iff_hit hkeys, counted_iff]
  constructor
  · intro h
    exact ⟨fun l hl hhit => ((h l).mp (And.intro hl hhit)).1,
      fun l hl hframe => ((h l).mpr (And.intro hl hframe)).2⟩
  · intro h l
    constructor
    · rintro ⟨hl, hhit⟩
      have hkept := h.kept l hl hhit
      obtain ⟨frame, hframe, -, hlocation⟩ := hhit
      exact ⟨hkept, frame, hframe, by rw [hlocation]⟩
    · rintro ⟨hkept, hframe⟩
      exact ⟨hnamed l hkept, h.hit l hkept hframe⟩

/-! ## A frame without a column -/

def sampleFiles (listed report : Text) : FileSystem where
  contents name :=
    if name = addr2lineFile (tracesDir ['w']) then some (.decoded listed)
    else if name = targetSmatchFile ['w'] then some (.decoded report)
    else none
  isDir name := name = tracesDir ['w']

def sampleArgs : Args :=
  ⟨[addr2lineFile (tracesDir ['w'])], some (targetSmatchFile ['w']), false, false, false, false, []⟩

theorem sampleInput (listed report : Text) :
    SameInput sampleArgs (sampleFiles listed report) [] ['w'] listed report := by
  have hne : targetSmatchFile ['w'] ≠ addr2lineFile (tracesDir ['w']) := by decide
  have hreport : (sampleFiles listed report).contents (targetSmatchFile ['w']) =
      some (.decoded report) := by
    simp only [sampleFiles, if_neg hne, if_true]
  refine ⟨by simp [sampleFiles], by simp [sampleFiles], ⟨_, ?_, hreport, rfl, by decide⟩,
    rfl, rfl, rfl⟩
  rw [chooseSmatchFile, if_pos]
  simp [pathExists, FileSystem.isFile, hreport]

/-- `0xff: f at a.c:7` and, where it is known, the column. -/
def sampleFrame (column : Option Text) (hne : ∀ n ∈ column, n ≠ [])
    (hdigits : ∀ n ∈ column, ∀ c ∈ n, isDecimal c = true) : Frame asciiWord where
  address := some ['f', 'f']
  func := ['f']
  path := ['a', '.', 'c']
  line := ['7']
  column := column
  address_ne_nil := by simp
  address_digits := by simp [isLowerHex]
  func_ne_nil := by simp
  func_chars := by decide
  path_ne_nil := by simp
  path_chars := by decide
  line_ne_nil := by simp
  digits := by decide
  column_ne_nil := hne
  column_digits := hdigits

def sampleSite : Site :=
  ⟨['a', '.', 'c'], ['7'], ['f'], by simp, by simp, by simp, by decide, by decide, by decide⟩

/-- `a.c:7 f() ` -/
def sampleBlock : Block where
  status := []
  site := sampleSite
  rest := []
  lines := []
  word := by simp
  oneLine := by simp

def columnFrame : Frame asciiWord := sampleFrame (some ['5']) (by simp) (by simp [isDecimal])

def columnFrames : List (Frame asciiWord) :=
  [columnFrame, { columnFrame with line := ['9'], line_ne_nil := by simp, digits := by decide }]

/-- The last of them is not covered. -/
def columnBlocks : List Block :=
  [sampleBlock,
    { sampleBlock with
      site := { sampleSite with line := ['9'], line_ne_nil := by simp, digits := by decide } },
    { sampleBlock with
      site := { sampleSite with line := ['8'], line_ne_nil := by simp, digits := by decide } }]

def columnFiles : FileSystem :=
  sampleFiles (SmatchMatch.listing columnFrames) (reportText [] columnBlocks)

theorem line_matchers_agree_iff_columns :
    ∃ printed report, main columnFiles [] ['w'] = .ok printed ∧
      start asciiWord sampleArgs columnFiles (fun _ => none) = .ok (report, fun _ => none) ∧
      Agree columnBlocks printed report.covered := by
  obtain ⟨printed, report, hmain, hstart, hagree⟩ :=
    line_matchers_agree_iff asciiWord columnFrames columnBlocks sampleArgs columnFiles [] ['w']
      (fun _ => none) (by decide) (sampleInput _ _)
  have hhit : ∀ l, Hit columnFrames l ↔ l ∈ ["a.c:7".toList, "a.c:9".toList] := fun l => by
    simp [Hit, columnFrames, columnFrame, sampleFrame, Frame.location, eq_comm (b := l)]
  have hkept : ∀ l, Kept columnBlocks l ↔
      l ∈ ["a.c:7".toList, "a.c:9".toList] ∨ l = "a.c:8".toList := by
    have hentries : ∀ block ∈ columnBlocks, block.entry.isSome = true := by decide
    have hlocations : columnBlocks.map (·.site.location) =
        ["a.c:7".toList, "a.c:9".toList] ++ ["a.c:8".toList] := rfl
    intro l
    rw [← List.mem_singleton, ← List.mem_append, ← hlocations, List.mem_map, Kept]
    exact exists_congr fun block => and_congr_right fun h => and_iff_right (hentries block h)
  have hmissed : ¬ ∃ frame ∈ columnFrames,
      locationKey frame.location = locationKey "a.c:8".toList := by
    decide
  refine ⟨printed, report, hmain, hstart, hagree.mpr ⟨fun l _ hl => ?_, fun l hl hframe => ?_⟩⟩
  · exact (hkept l).mpr (.inl ((hhit l).mp hl))
  · rcases (hkept l).mp hl with hl | rfl
    · exact (hhit l).mpr hl
    · exact absurd hframe hmissed

def bareFrame : Frame asciiWord := sampleFrame none (by simp) (by simp)

def bareFiles : FileSystem :=
  sampleFiles (SmatchMatch.listing [bareFrame]) (reportText [] [sampleBlock])

/-- The frame `0xff: f at a.c:7` covers the entry at `a.c:7`, and no line is printed. -/
theorem column_less_frame_missed :
    ∃ printed report, main bareFiles [] ['w'] = .ok printed ∧
      start asciiWord sampleArgs bareFiles (fun _ => none) = .ok (report, fun _ => none) ∧
      ¬ Agree [sampleBlock] printed report.covered := by
  have hinput : SameInput sampleArgs bareFiles [] ['w'] (SmatchMatch.listing [bareFrame])
      (reportText [] [sampleBlock]) := sampleInput _ _
  obtain ⟨traces, hmain, hkeys⟩ := hinput.main_eq
  refine ⟨_, _, hmain, hinput.start_eq _, fun hagree => ?_⟩
  have hkept : Kept [sampleBlock] sampleBlock.site.location :=
    ⟨sampleBlock, by simp, by decide, rfl⟩
  have hcounted := counted_iff.mpr ⟨hkept, bareFrame, List.mem_singleton_self _, rfl⟩
  obtain ⟨-, frame, hframe, hcolumn, -⟩ :=
    (printed_iff_hit hkeys).mp ((hagree sampleBlock.site.location).mpr hcounted)
  obtain rfl := List.mem_singleton.mp hframe
  simp [bareFrame, sampleFrame] at hcolumn

end TdvfFuzz.SmatchMatch
