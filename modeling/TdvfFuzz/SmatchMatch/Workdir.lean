import TdvfFuzz.SmatchMatch.BlockList
import TdvfFuzz.SmatchMatch.LineAgreement

/-!
# From the traces of a working directory to the matched report lines

`fuzz.sh smatch` resolves the blocks of the edge list, takes the path of the
source tree off and matches the report.  A line stays exactly if a block of some
trace was resolved to its location.
-/

namespace TdvfFuzz.SmatchMatch

open TdvfFuzz.Foundation
open TdvfFuzz.Smatcher

/-! ## The scripts -/

def edgeListFile (workDir : Text) : Text := tracesDir workDir ++ "/edges_uniq.lst".toList

def blockListFile (workDir : Text) : Text := tracesDir workDir ++ "/blocks_uniq.lst".toList

def addrListFile (workDir : Text) : Text := tracesDir workDir ++ "/addr_uniq.lst".toList

def linesListFile (workDir : Text) : Text := addr2lineFile (tracesDir workDir)

def smatchMatchFile (workDir : Text) : Text := tracesDir workDir ++ "/smatch_match.lst".toList

def targetElf (workDir : Text) : Text := workDir ++ "/target/vmlinux".toList

/-- `gen_addr2line.sh` on a directory, which ends with status 0 in all cases. -/
def genAddr2line (c : Collation) (euAddr2line : Text → Text) (workDir : Text) (files : Files) :
    Files :=
  match files (edgeListFile workDir) with
  | none => files
  | some edges =>
      if (files (linesListFile workDir)).isSome then files
      else if files (targetElf workDir) = none then files
      else
        let files := Function.update files (blockListFile workDir) (some (uniqueBlocks c edges))
        let addrs := (files (addrListFile workDir)).getD (uniqueBlocks c edges)
        Function.update files (linesListFile workDir) (some (euAddr2line addrs))

/-- The path in front of `init/main.c`, which is a pattern for itself. -/
structure SourceRoot where
  path : Text
  plain : ∀ c ∈ path, c.isAlphanum = true ∨ c = '/' ∨ c = '_' ∨ c = '-'

abbrev SourceRoot.text (root : SourceRoot) : Text := '/' :: root.path

theorem SourceRoot.newline_not_mem (root : SourceRoot) : '\n' ∉ root.text := by
  intro h
  have hpath := (List.mem_cons.mp h).resolve_left (by decide)
  exact absurd (root.plain _ hpath) (by decide)

/-- `strip_addr2line_absolute_path.sh`; `none` for status 1. -/
def stripAbsolutePath (root : SourceRoot) (workDir : Text) (files : Files) : Option Files :=
  match files (targetElf workDir), files (linesListFile workDir) with
  | some _, some listed =>
      some (Function.update files (linesListFile workDir)
        (some (sed (removeText root.text) listed)))
  | _, _ => none

def fileSystem (workDir : Text) (files : Files) : FileSystem where
  contents name := (files name).map .decoded
  isDir name := name = tracesDir workDir

/-- The steps behind `gen_addr2line.sh`, and whether the status is 0. -/
def matchListing (c : Collation) (root : SourceRoot) (defaultSmatchFile workDir : Text)
    (files : Files) : Files × Bool :=
  match stripAbsolutePath root workDir files with
  | none => (files, false)
  | some files =>
      match main (fileSystem workDir files) defaultSmatchFile workDir with
      | .error _ => (Function.update files (smatchMatchFile workDir) (some []), false)
      | .ok printed =>
          (Function.update files (smatchMatchFile workDir)
            (some (terminated '\n' (c.sortUniq (fileLines (terminated '\n' printed))))), true)

/-- `smatch_match` of `fuzz.sh` without the fast matcher. -/
def smatchMatch (c : Collation) (euAddr2line : Text → Text)
    (root : SourceRoot) (defaultSmatchFile workDir : Text) (files : Files) : Files × Bool :=
  matchListing c root defaultSmatchFile workDir (genAddr2line c euAddr2line workDir files)

/-! ## Lines of `eu-addr2line` -/

/-- A frame as it is printed, in the source tree at `root` or outside it. -/
structure SourceFrame (word : WordClass) (root : Text) where
  frame : Frame word
  inTree : Bool
  func_slash : '/' ∉ frame.func
  once : ¬ root <:+: frame.location ++ frame.tail

inductive Printed (word : WordClass) (root : Text) where
  | frame (source : SourceFrame word root)
  /-- A line for an address without debug information. -/
  | unresolved (text : Text) (oneLine : ∀ c ∈ text, c ≠ '\r' ∧ isLineBreak c = false)
      (noAddress : addressPattern.search text = none)
      (noInlined : inlinedPattern.search text = none) (once : ¬ root <:+: text)

section

variable {word : WordClass} {root : Text}

def SourceFrame.text (source : SourceFrame word root) : Text :=
  source.frame.head ++ (source.frame.func ++ " at ".toList) ++
    (if source.inTree then root else []) ++ (source.frame.location ++ source.frame.tail)

namespace Printed

def text : Printed word root → Text
  | .frame source => source.text
  | .unresolved text _ _ _ _ => text

/-- The line with the path of the source tree taken off. -/
def stripped : Printed word root → Text
  | .frame source => source.frame.text
  | .unresolved text _ _ _ _ => text

def frame? : Printed word root → Option (Frame word)
  | .frame source => some source.frame
  | .unresolved _ _ _ _ _ => none

end Printed

/-- The tool resolves each address by itself, in the order of its input. -/
def Resolves (euAddr2line : Text → Text) (resolve : Text → List (Printed word root)) : Prop :=
  ∀ addrs : List Text, (∀ addr ∈ addrs, '\n' ∉ addr) →
    euAddr2line (terminated '\n' addrs) =
      terminated '\n' ((addrs.flatMap resolve).map Printed.text)

/-! ## Taking the path off -/

theorem slash_not_mem_head (frame : Frame word) : '/' ∉ frame.head := by
  cases haddress : frame.address with
  | none =>
      simp only [Frame.head, haddress]
      decide
  | some address =>
      simp only [Frame.head, haddress, List.mem_append, not_or]
      refine ⟨⟨by decide, fun h => ?_⟩, by decide⟩
      have := Frame.range_of_isLowerHex (frame.address_digits address haddress '/' h)
      simp at this

theorem slash_not_mem_front (source : SourceFrame word root) :
    '/' ∉ source.frame.head ++ (source.frame.func ++ " at ".toList) := by
  simp only [List.mem_append, not_or]
  exact ⟨slash_not_mem_head _, source.func_slash, by decide⟩

theorem removeText_text (source : SourceFrame word ('/' :: root)) :
    removeText ('/' :: root) source.text = source.frame.text := by
  have hback := removeText_of_not_infix (by simp) source.once
  have htext : source.frame.text =
      source.frame.head ++ (source.frame.func ++ " at ".toList) ++
        (source.frame.location ++ source.frame.tail) := by
    simp [Frame.text]
  rw [SourceFrame.text, htext, List.append_assoc, removeText_front _ (slash_not_mem_front source)]
  cases source.inTree with
  | true => rw [if_pos rfl, removeText_self_append (by simp), hback]
  | false => rw [if_neg (by simp), List.nil_append, hback]

theorem removeText_printed (printed : Printed word ('/' :: root)) :
    removeText ('/' :: root) printed.text = printed.stripped := by
  cases printed with
  | frame source => exact removeText_text source
  | unresolved text oneLine noAddress noInlined once => exact removeText_of_not_infix (by simp) once

/-! ## Reading the listing -/

theorem newline_not_mem_text (hroot : '\n' ∉ root) (printed : Printed word root) :
    '\n' ∉ printed.text := by
  cases printed with
  | frame source =>
      have h := source.frame.newline_not_mem
      simp only [Frame.text, List.mem_append, not_or] at h
      simp only [Printed.text, SourceFrame.text, List.mem_append, not_or]
      refine ⟨⟨⟨h.1, h.2.1⟩, ?_⟩, h.2.2⟩
      split
      · exact hroot
      · simp
  | unresolved text oneLine noAddress noInlined once =>
      exact fun h => absurd (oneLine _ h).2 (by decide)

theorem stripped_chars (printed : Printed word root) :
    ∀ c ∈ printed.stripped, c ≠ '\r' ∧ isLineBreak c = false := by
  cases printed with
  | frame source => exact fun c hc => not_lineBreak (source.frame.chars c hc)
  | unresolved text oneLine noAddress noInlined once => exact oneLine

theorem line2addr_printed (listed : List (Printed word root)) (s : Addr2line) :
    ∃ s', (listed.map Printed.stripped).foldlM Addr2line.readLine s = .ok s' ∧
      ∀ l, s'.line2addr.getD l [] ≠ [] ↔
        s.line2addr.getD l [] ≠ [] ∨ ∃ frame ∈ listed.filterMap Printed.frame?, frame.lino = l := by
  induction listed generalizing s with
  | nil => exact ⟨s, rfl, by simp⟩
  | cons printed listed ih =>
      cases printed with
      | frame source =>
          obtain ⟨addr, hline⟩ := source.frame.readLine_text s
          obtain ⟨s', hfold, hkeys⟩ := ih (s.addFrame addr source.frame.func source.frame.lino)
          refine ⟨s', by simp [Printed.stripped, hline, hfold], fun l => ?_⟩
          rw [hkeys, List.filterMap_cons, Printed.frame?, List.exists_mem_cons_iff, ← or_assoc]
          apply or_congr_left
          rw [Addr2line.addFrame, Dict.getD_set]
          by_cases hl : l = source.frame.lino
          · simp [hl]
          · simp [hl, Ne.symm hl]
      | unresolved text oneLine noAddress noInlined once =>
          have hline : s.readLine text = .ok s := by
            simp [Addr2line.readLine, noAddress, noInlined]
          obtain ⟨s', hfold, hkeys⟩ := ih s
          exact ⟨s', by simp [Printed.stripped, hline, hfold], hkeys⟩

/-! ## Printed lines of the report -/

theorem getD_foldl_parseSmatchLine (lines : List Text) (lino2msg : Dict Text Text) (l : Text)
    (h : l ∈ (lines.foldl parseSmatchLine lino2msg).keys) :
    (lines.foldl parseSmatchLine lino2msg).getD l [] ∈ lines ∨
      l ∈ lino2msg.keys ∧
        (lines.foldl parseSmatchLine lino2msg).getD l [] = lino2msg.getD l [] := by
  induction lines generalizing lino2msg with
  | nil => exact .inr ⟨h, rfl⟩
  | cons line lines ih =>
      rw [List.foldl_cons] at h ⊢
      rcases ih _ h with hline | ⟨hl, heq⟩
      · exact .inl (List.mem_cons_of_mem line hline)
      · rw [heq]
        unfold parseSmatchLine at hl ⊢
        cases hlocation : lineLocation line with
        | none => exact .inr ⟨by simpa [hlocation] using hl, rfl⟩
        | some lino =>
            simp only [hlocation, Dict.mem_keys_set, Dict.getD_set] at hl ⊢
            by_cases hlino : l = lino
            · simp [hlino]
            · simp [hlino, hl.resolve_left hlino]

theorem mem_splitlines_of_mem_matchedLines {traces : Addr2line} {report line : Text}
    (h : line ∈ matchedLines traces (parseSmatchText report)) : line ∈ splitlines report := by
  obtain ⟨l, hl, rfl⟩ := List.mem_map.mp h
  have hkey := (List.mem_filter.mp hl).1
  rcases getD_foldl_parseSmatchLine _ _ l hkey with hline | ⟨hempty, -⟩
  · exact hline
  · simp at hempty

/-! ## The matched lines -/

theorem removeText_stripped (printed : Printed word ('/' :: root)) :
    removeText ('/' :: root) printed.stripped = printed.stripped := by
  cases printed with
  | frame source =>
      have htext : source.frame.text =
          source.frame.head ++ (source.frame.func ++ " at ".toList) ++
            (source.frame.location ++ source.frame.tail) := by
        simp [Frame.text]
      rw [Printed.stripped, htext, removeText_front _ (slash_not_mem_front source),
        removeText_of_not_infix (by simp) source.once]
  | unresolved text oneLine noAddress noInlined once => exact removeText_of_not_infix (by simp) once

theorem main_fileSystem {files : Files} {workDir report : Text}
    {listed : List (Printed word root)} {traces : Addr2line} (defaultSmatchFile : Text)
    (hlisting : files (linesListFile workDir) =
      some (terminated '\n' (listed.map Printed.stripped)))
    (hreport : files (targetSmatchFile workDir) = some report)
    (hfold : (listed.map Printed.stripped).foldlM Addr2line.readLine .initial = .ok traces) :
    main (fileSystem workDir files) defaultSmatchFile workDir =
      .ok (matchedLines traces (parseSmatchText report)) := by
  have hchosen : chooseSmatchFile (fileSystem workDir files) defaultSmatchFile workDir =
      .ok (targetSmatchFile workDir) := by
    simp [chooseSmatchFile, pathExists, FileSystem.isFile, fileSystem, hreport]
  have hlines : splitlines (terminated '\n' (listed.map Printed.stripped)) =
      listed.map Printed.stripped :=
    splitlines_terminated (by simpa using fun printed _ => stripped_chars printed)
  have htraces : parseAddr2line (fileSystem workDir files) (tracesDir workDir) = .ok traces := by
    rw [linesListFile] at hlisting
    simp [parseAddr2line, pathExists, FileSystem.isFile, readText, fileSystem, hlisting, hlines,
      hfold, Except.mapError]
  rw [main, if_pos (by simp [fileSystem]), hchosen, bind_ok, htraces]
  simp [readText, fileSystem, hreport]

/-- The lines that the working directory ends up with, for the frames of the listing. -/
structure Matched (c : Collation) (report : Text) (hits : Text → Prop) (output : List Text) :
    Prop where
  rising : output.Pairwise fun x y => c.le x y ∧ x ≠ y
  fromReport : ∀ line ∈ output, line ∈ splitlines report
  exact : ∀ l, (∃ line ∈ output, lineLocation line = some l) ↔ Named report l ∧ hits l

theorem matched_of_printed (c : Collation) {traces : Addr2line} {report : Text}
    {frames : List (Frame word)}
    (hkeys : ∀ l, traces.line2addr.getD l [] ≠ [] ↔ ∃ frame ∈ frames, frame.lino = l) :
    ∃ output, terminated '\n' (c.sortUniq (fileLines (terminated '\n'
        (matchedLines traces (parseSmatchText report))))) = terminated '\n' output ∧
      Matched c report (Hit frames) output := by
  have hlines : ∀ line ∈ matchedLines traces (parseSmatchText report), '\n' ∉ line := by
    intro line hline hnewline
    have := not_break_of_mem_linesAt report line (mem_splitlines_of_mem_matchedLines hline)
    exact absurd (this _ hnewline) (by decide)
  rw [fileLines_terminated hlines]
  refine ⟨_, rfl, c.pairwise_sortUniq _, fun line hline => ?_, fun l => ?_⟩
  · exact mem_splitlines_of_mem_matchedLines (c.mem_sortUniq.mp hline)
  · rw [← printed_iff_hit hkeys]
    simp

theorem smatchMatchFile_ne (workDir : Text) :
    smatchMatchFile workDir ≠ linesListFile workDir ∧
      smatchMatchFile workDir ≠ edgeListFile workDir ∧
      smatchMatchFile workDir ≠ targetElf workDir ∧
      smatchMatchFile workDir ≠ targetSmatchFile workDir := by
  simp only [smatchMatchFile, linesListFile, addr2lineFile, edgeListFile, targetElf,
    targetSmatchFile, tracesDir, List.append_assoc, ne_eq, List.append_cancel_left_eq]
  decide

theorem linesListFile_ne (workDir : Text) :
    linesListFile workDir ≠ edgeListFile workDir ∧ linesListFile workDir ≠ targetElf workDir ∧
      linesListFile workDir ≠ targetSmatchFile workDir := by
  simp only [linesListFile, addr2lineFile, edgeListFile, targetElf, targetSmatchFile, tracesDir,
    List.append_assoc, ne_eq, List.append_cancel_left_eq]
  decide

theorem blockListFile_ne (workDir : Text) :
    blockListFile workDir ≠ linesListFile workDir ∧ blockListFile workDir ≠ edgeListFile workDir ∧
      blockListFile workDir ≠ addrListFile workDir ∧ blockListFile workDir ≠ targetElf workDir ∧
      blockListFile workDir ≠ targetSmatchFile workDir := by
  simp only [blockListFile, linesListFile, addr2lineFile, edgeListFile, addrListFile, targetElf,
    targetSmatchFile, tracesDir, List.append_assoc, ne_eq, List.append_cancel_left_eq]
  decide

end

/-! ## A run and a second run -/

section

variable {word : WordClass} {root : SourceRoot}

/-- A directory with an edge list, a target and a report, and without any listing. -/
structure Ready (workDir : Text) (files : Files) (edges report : Text) : Prop where
  edges : files (edgeListFile workDir) = some edges
  elf : files (targetElf workDir) ≠ none
  report : files (targetSmatchFile workDir) = some report
  noLines : files (linesListFile workDir) = none
  noAddrs : files (addrListFile workDir) = none

def outputLines (c : Collation) (traces : Addr2line) (report : Text) : Text :=
  terminated '\n' (c.sortUniq (fileLines (terminated '\n'
    (matchedLines traces (parseSmatchText report)))))

theorem matchListing_eq {files : Files} {workDir report : Text} {lines : List Text}
    {listed : List (Printed word root.text)} {traces : Addr2line} (c : Collation)
    (defaultSmatchFile : Text) (helf : files (targetElf workDir) ≠ none)
    (hreport : files (targetSmatchFile workDir) = some report)
    (hlisting : files (linesListFile workDir) = some (terminated '\n' lines))
    (hlines : ∀ line ∈ lines, '\n' ∉ line)
    (hstrip : lines.map (removeText root.text) = listed.map Printed.stripped)
    (hfold : (listed.map Printed.stripped).foldlM Addr2line.readLine .initial = .ok traces) :
    matchListing c root defaultSmatchFile workDir files =
      (Function.update (Function.update files (linesListFile workDir)
        (some (terminated '\n' (listed.map Printed.stripped))))
        (smatchMatchFile workDir) (some (outputLines c traces report)), true) := by
  obtain ⟨elf, helf⟩ := Option.ne_none_iff_exists'.mp helf
  have hmain : main (fileSystem workDir (Function.update files (linesListFile workDir)
      (some (terminated '\n' (listed.map Printed.stripped))))) defaultSmatchFile workDir =
      .ok (matchedLines traces (parseSmatchText report)) :=
    main_fileSystem defaultSmatchFile (Function.update_self ..)
      ((Function.update_of_ne (linesListFile_ne workDir).2.2.symm _ _).trans hreport) hfold
  simp only [matchListing, stripAbsolutePath, helf, hlisting, sed_terminated _ hlines, hstrip,
    hmain, outputLines]

theorem Ready.genAddr2line_eq {workDir : Text} {files : Files} {edges report : Text}
    (h : Ready workDir files edges report) (c : Collation) (euAddr2line : Text → Text) :
    genAddr2line c euAddr2line workDir files =
      Function.update (Function.update files (blockListFile workDir) (some (uniqueBlocks c edges)))
        (linesListFile workDir) (some (euAddr2line (uniqueBlocks c edges))) := by
  have haddrs : Function.update files (blockListFile workDir) (some (uniqueBlocks c edges))
      (addrListFile workDir) = none :=
    (Function.update_of_ne (blockListFile_ne workDir).2.2.1.symm _ _).trans h.noAddrs
  simp only [genAddr2line, h.edges, h.noLines, Option.isSome_none, Bool.false_eq_true, if_false,
    if_neg h.elf, haddrs, Option.getD_none]

theorem Ready.genAddr2line_other {workDir : Text} {files : Files} {edges report : Text}
    (h : Ready workDir files edges report) (c : Collation) (euAddr2line : Text → Text)
    {name : Text} (hblocks : name ≠ blockListFile workDir) (hlines : name ≠ linesListFile workDir) :
    genAddr2line c euAddr2line workDir files name = files name := by
  rw [h.genAddr2line_eq, Function.update_of_ne hlines, Function.update_of_ne hblocks]

/-- The files behind a run, where the listing is that of the given lines. -/
def matchedFiles (workDir : Text) (files : Files) (listing output : Text) : Files :=
  Function.update (Function.update files (linesListFile workDir) (some listing))
    (smatchMatchFile workDir) (some output)

theorem Ready.smatchMatch_eq {workDir : Text} {files : Files} {edges report : Text}
    (h : Ready workDir files edges report) (c : Collation) {euAddr2line : Text → Text}
    (defaultSmatchFile : Text) {listed : List (Printed word root.text)} {traces : Addr2line}
    (hprinted : euAddr2line (uniqueBlocks c edges) = terminated '\n' (listed.map Printed.text))
    (hfold : (listed.map Printed.stripped).foldlM Addr2line.readLine .initial = .ok traces) :
    smatchMatch c euAddr2line root defaultSmatchFile workDir files =
      (matchedFiles workDir (genAddr2line c euAddr2line workDir files)
        (terminated '\n' (listed.map Printed.stripped)) (outputLines c traces report), true) := by
  obtain ⟨-, hlines_elf, hlines_report⟩ := linesListFile_ne workDir
  obtain ⟨-, -, -, hblock_elf, hblock_report⟩ := blockListFile_ne workDir
  have hlisting : genAddr2line c euAddr2line workDir files (linesListFile workDir) =
      some (terminated '\n' (listed.map Printed.text)) := by
    rw [h.genAddr2line_eq, Function.update_self, hprinted]
  have hnewline : ∀ line ∈ listed.map Printed.text, '\n' ∉ line := by
    simp only [List.forall_mem_map]
    exact fun printed _ => newline_not_mem_text root.newline_not_mem printed
  have hstrip : (listed.map Printed.text).map (removeText root.text) =
      listed.map Printed.stripped := by
    simp [Function.comp_def, removeText_printed]
  apply matchListing_eq c defaultSmatchFile _ _ hlisting hnewline hstrip hfold
  · rw [h.genAddr2line_other c _ hblock_elf.symm hlines_elf.symm]
    exact h.elf
  · rw [h.genAddr2line_other c _ hblock_report.symm hlines_report.symm]
    exact h.report

theorem update_of_eq {files : Files} {name : Text} {content : Option Text}
    (h : files name = content) : Function.update files name content = files :=
  h ▸ Function.update_eq_self name files

/-- A listing that is there is taken as it is. -/
theorem smatchMatch_again {files : Files} {workDir edges report : Text}
    {listed : List (Printed word root.text)} {traces : Addr2line} (c : Collation)
    (euAddr2line : Text → Text) (defaultSmatchFile : Text)
    (hedges : files (edgeListFile workDir) = some edges)
    (helf : files (targetElf workDir) ≠ none)
    (hreport : files (targetSmatchFile workDir) = some report)
    (hlisting : files (linesListFile workDir) =
      some (terminated '\n' (listed.map Printed.stripped)))
    (hmatched : files (smatchMatchFile workDir) = some (outputLines c traces report))
    (hfold : (listed.map Printed.stripped).foldlM Addr2line.readLine .initial = .ok traces) :
    smatchMatch c euAddr2line root defaultSmatchFile workDir files = (files, true) := by
  have hgen : genAddr2line c euAddr2line workDir files = files := by
    simp [genAddr2line, hedges, hlisting]
  have hnewline : ∀ line ∈ listed.map Printed.stripped, '\n' ∉ line := by
    simp only [List.forall_mem_map]
    exact fun printed _ h => absurd (stripped_chars printed _ h).2 (by decide)
  have hstrip : (listed.map Printed.stripped).map (removeText root.text) =
      listed.map Printed.stripped := by
    simp [Function.comp_def, removeText_stripped]
  rw [smatchMatch, hgen,
    matchListing_eq c defaultSmatchFile helf hreport hlisting hnewline hstrip hfold,
    update_of_eq hlisting, update_of_eq hmatched]

/-- The state of the working directory that a run leaves is one that a run keeps. -/
theorem Ready.smatchMatch_matchedFiles {workDir : Text} {files : Files} {edges report : Text}
    (h : Ready workDir files edges report) (c : Collation) (euAddr2line : Text → Text)
    (defaultSmatchFile : Text) {listed : List (Printed word root.text)} {traces : Addr2line}
    (hfold : (listed.map Printed.stripped).foldlM Addr2line.readLine .initial = .ok traces)
    {final : Files}
    (hfinal : final = matchedFiles workDir (genAddr2line c euAddr2line workDir files)
      (terminated '\n' (listed.map Printed.stripped)) (outputLines c traces report)) :
    smatchMatch c euAddr2line root defaultSmatchFile workDir final = (final, true) := by
  obtain ⟨hlines_edges, hlines_elf, hlines_report⟩ := linesListFile_ne workDir
  obtain ⟨hmatch_lines, hmatch_edges, hmatch_elf, hmatch_report⟩ := smatchMatchFile_ne workDir
  obtain ⟨-, hblock_edges, -, hblock_elf, hblock_report⟩ := blockListFile_ne workDir
  have hother : ∀ name, name ≠ blockListFile workDir → name ≠ linesListFile workDir →
      name ≠ smatchMatchFile workDir → final name = files name := by
    intro name hblocks hlines hmatch
    rw [hfinal, matchedFiles, Function.update_of_ne hmatch, Function.update_of_ne hlines,
      h.genAddr2line_other c _ hblocks hlines]
  have hedges := hother _ hblock_edges.symm hlines_edges.symm hmatch_edges.symm
  have helf := hother _ hblock_elf.symm hlines_elf.symm hmatch_elf.symm
  have hreport := hother _ hblock_report.symm hlines_report.symm hmatch_report.symm
  have hlisting : final (linesListFile workDir) =
      some (terminated '\n' (listed.map Printed.stripped)) := by
    rw [hfinal, matchedFiles, Function.update_of_ne hmatch_lines.symm, Function.update_self]
  have hmatched : final (smatchMatchFile workDir) = some (outputLines c traces report) := by
    rw [hfinal, matchedFiles, Function.update_self]
  exact smatchMatch_again c euAddr2line defaultSmatchFile (hedges.trans h.edges)
    (helf.trans_ne h.elf) (hreport.trans h.report) hlisting hmatched hfold

end

/-! ## Two resolved blocks and a made-up one -/

def sampleRoot : SourceRoot := ⟨"src/".toList, by decide⟩

/-- `0xaddress: g at /src/b.c:line:3` -/
def treeFrame (address line : Text) (hdigits : ∀ c ∈ address, isLowerHex c = true)
    (hne : address ≠ []) (hline : line ≠ [] ∧ ∀ c ∈ line, isDecimal c = true)
    (honce : ¬ sampleRoot.text <:+: ['b', '.', 'c'] ++ ':' :: line ++ [':', '3']) :
    Printed asciiWord sampleRoot.text :=
  .frame
    { frame :=
        { address := some address
          func := ['g']
          path := ['b', '.', 'c']
          line := line
          column := some ['3']
          address_ne_nil := by simpa using hne
          address_digits := by simpa using hdigits
          func_ne_nil := by simp
          func_chars := by decide
          path_ne_nil := by simp
          path_chars := by decide
          line_ne_nil := hline.1
          digits := hline.2
          column_ne_nil := by simp
          column_digits := by simp [isDecimal] }
      inTree := true
      func_slash := by simp
      once := honce }

def sampleResolve (addr : Text) : List (Printed asciiWord sampleRoot.text) :=
  if addr = "0000000000000020".toList then
    [treeFrame "0000000000000020".toList ['7'] (by decide +kernel) (by decide) (by decide)
      (by decide)]
  else if addr = "0000000000000030".toList then
    [treeFrame "0000000000000030".toList ['9'] (by decide +kernel) (by decide) (by decide)
      (by decide)]
  else if addr = "00000010ffffffff".toList then
    [.unresolved "0x00000010ffffffff: ?? ??:0".toList (by decide +kernel) (by decide +kernel)
      (by decide +kernel) (by decide)]
  else []

def sampleTool (addrs : Text) : Text :=
  terminated '\n' (((fileLines addrs).flatMap sampleResolve).map Printed.text)

def sampleResults : List (ℚ × Option TraceResult) :=
  match parseTraces sampleTraces with
  | .ok results => results
  | .error _ => []

def tracedFiles : Files := fun name =>
  if name = edgeListFile ['w'] then some (genReports sampleResults).edgesUniq
  else if name = targetElf ['w'] then some []
  else if name = targetSmatchFile ['w'] then some "b.c:7 g() warn\nb.c:8 g() warn\n".toList
  else none

end TdvfFuzz.SmatchMatch
