import TdvfFuzz.FastMatcher.Output
import TdvfFuzz.FastMatcher.Report
import TdvfFuzz.SmatchMatch.Workdir
import TdvfFuzz.Smatcher.RoundTrip

/-!
# From the traces of a campaign to its report, by the fast matcher

Each working directory is traced and matched by itself, with any number of
worker threads.  The report of the campaign marks an entry exactly if the traces
of a directory with that entry reach a row of its location.
-/

namespace TdvfFuzz.SmatchMatch

open TdvfFuzz.Foundation TdvfFuzz.FastMatcher TdvfFuzz.Smatcher

/-! ## The scripts -/

def linecovFile (workDir : Text) : Text := tracesDir workDir ++ "/linecov.lst".toList

def annotatedFile (workDir : Text) : Text :=
  workDir ++ "/target/smatch_warns_annotated.txt".toList

/-- `smatch_match` of `fuzz.sh` with the fast matcher, for what that prints. -/
def fastMatch (root : SourceRoot) (workDir printed : Text) (files : Files) : Files × Bool :=
  let files := Function.update files (linecovFile workDir) (some printed)
  match files (targetElf workDir) with
  | none => (files, false)
  | some _ =>
      (Function.update files (linecovFile workDir) (some (sed (removeText root.text) printed)),
        true)

/-! ## Reading the listing -/

/-- The coverage reader takes the path as far back as its characters go. -/
def readPath (word : WordClass) (path line : Text) : Option Text :=
  if path.rtakeWhile word.isPathChar = [] then none
  else some (path.rtakeWhile word.isPathChar ++ ':' :: line)

section

variable (word : WordClass) {path line : Text} (hcolon : ':' ∉ path) (before : Option Char)
  (rest : Text)

include hcolon

/-- Everything in front of the last run of path characters is passed over. -/
theorem scanFrom_front : ∃ last,
    Regex.scanFrom (coveragePattern word) 0 before (path ++ ':' :: rest) =
      Regex.scanFrom (coveragePattern word) 0 last
        (path.rtakeWhile word.isPathChar ++ ':' :: rest) := by
  have hpath : path.rdropWhile word.isPathChar ++ path.rtakeWhile word.isPathChar = path :=
    List.rdropWhile_append_rtakeWhile
  have hfrontColon : ':' ∉ path.rdropWhile word.isPathChar := fun h =>
    hcolon ((List.rdropWhile_prefix word.isPathChar path).subset h)
  have htext : path ++ ':' :: rest = path.rdropWhile word.isPathChar ++
      (path.rtakeWhile word.isPathChar ++ ':' :: rest) := by
    rw [← List.append_assoc, hpath]
  rw [htext]
  rcases List.eq_nil_or_concat (path.rdropWhile word.isPathChar) with hnil | ⟨front, e, hfront⟩
  · exact ⟨before, by rw [hnil, List.nil_append]⟩
  · have hne : path.rdropWhile word.isPathChar ≠ [] := by simp [hfront]
    have he : word.isPathChar e = false := by
      simpa [hfront] using List.rdropWhile_last_not word.isPathChar path hne
    rw [hfront] at hfrontColon ⊢
    simp only [List.concat_eq_append, List.mem_append, List.mem_singleton, not_or] at hfrontColon
    refine ⟨some e, ?_⟩
    rw [List.concat_eq_append, List.append_assoc, List.singleton_append]
    exact coverage_skip word before hfrontColon.1 he fun heq => absurd heq.symm hfrontColon.2

variable (hne : line ≠ []) (hdigits : ∀ c ∈ line, isDecimal c = true)

include hne hdigits

theorem scanFrom_line : ∃ last,
    (Regex.scanFrom (coveragePattern word) 0 before (path ++ ':' :: line ++ '\n' :: rest)).map
        Match.consumed =
      (readPath word path line).toList ++
        (Regex.scanFrom (coveragePattern word) 0 last rest).map Match.consumed := by
  obtain ⟨last, hscan⟩ := scanFrom_front word hcolon before (line ++ '\n' :: rest)
  rw [List.append_assoc, List.cons_append, hscan, readPath]
  refine ⟨some '\n', ?_⟩
  split
  case isTrue hnil =>
    have hnumber : ':' ∉ line := fun h => absurd (hdigits ':' h) (by decide)
    rw [hnil, List.nil_append, scanFrom_other _ _ isPathChar_colon,
      coverage_skip word _ hnumber isPathChar_newline (by simp)]
    rfl
  case isFalse hkept =>
    have hchars : ∀ c ∈ path.rtakeWhile word.isPathChar, word.isPathChar c = true :=
      fun c hc => List.mem_rtakeWhile_imp hc
    have hfirst := first_line word last ('\n' :: rest) hchars hkept hdigits hne
      (by simp [isDecimal, Char.isDigit])
    have htext : path.rtakeWhile word.isPathChar ++ ':' :: (line ++ '\n' :: rest) =
        (path.rtakeWhile word.isPathChar ++ ':' :: line) ++ '\n' :: rest := by
      simp
    rw [htext] at hfirst ⊢
    rw [Regex.scanFrom_of_first hfirst (by simp), scanFrom_other _ _ isPathChar_newline]
    rfl

end

/-- The location has a line and a number of its own in the listing. -/
structure Legible (info : LineInfo) : Prop where
  newline : '\n' ∉ displayPath info.path
  colon : ':' ∉ displayPath info.path

section

variable (word : WordClass) (root : SourceRoot)

/-- What is read from the line of a location, which has lost the path of the source tree. -/
def readLocation (info : LineInfo) : Option Text :=
  readPath word (removeText root.text (displayPath info.path)) (lineText info)

theorem removeText_display (info : LineInfo) :
    removeText root.text info.display =
      removeText root.text (displayPath info.path) ++ ':' :: lineText info := by
  have hcolon : ':' ∉ root.text := by
    intro h
    have hpath := (List.mem_cons.mp h).resolve_left (by decide)
    exact absurd (root.plain _ hpath) (by decide)
  have hslash : '/' ∉ lineText info := fun h =>
    absurd (isDecimal_of_mem_lineText h) (by decide)
  rw [display_eq, SourceRoot.text, removeText_back _ hcolon hslash]

theorem scanFrom_stripped {infos : List LineInfo} (h : ∀ info ∈ infos, Legible info)
    (before : Option Char) :
    (Regex.scanFrom (coveragePattern word) 0 before
      (terminated '\n' (infos.map fun info => removeText root.text info.display))).map
        Match.consumed = infos.filterMap (readLocation word root) := by
  induction infos generalizing before with
  | nil => rfl
  | cons info rest ih =>
      rw [List.forall_mem_cons] at h
      have hcolon : ':' ∉ removeText root.text (displayPath info.path) := fun hmem =>
        h.1.colon (mem_of_mem_removeText hmem)
      obtain ⟨last, hscan⟩ := scanFrom_line word hcolon before
        (terminated '\n' (rest.map fun info => removeText root.text info.display))
        (lineText_ne_nil info) fun c => isDecimal_of_mem_lineText
      have htext : terminated '\n'
          ((info :: rest).map fun info => removeText root.text info.display) =
          removeText root.text (displayPath info.path) ++ ':' :: lineText info ++
            '\n' :: terminated '\n' (rest.map fun info => removeText root.text info.display) := by
        simp [terminated, removeText_display]
      rw [htext, hscan, ih h.2, ← readLocation, List.filterMap_cons]
      cases readLocation word root info <;> rfl

theorem mem_parseLineCoverage_stripped {hits : Finset LineInfo} (h : ∀ info ∈ hits, Legible info)
    (key : Text) :
    key ∈ parseLineCoverage word (sed (removeText root.text) (printHits hits)) ↔
      ∃ info ∈ hits, (readLocation word root info).map locationKey = some key := by
  have hlines : ∀ line ∈ (sorted hits).map LineInfo.display, '\n' ∉ line := by
    simp only [List.forall_mem_map, mem_sorted, display_eq, List.mem_append, not_or]
    refine fun info hinfo => ⟨(h info hinfo).newline, fun hmem => ?_⟩
    have hdigit := (List.mem_cons.mp hmem).resolve_left (by decide)
    exact absurd (isDecimal_of_mem_lineText hdigit) (by decide)
  have hprinted : printHits hits = terminated '\n' ((sorted hits).map LineInfo.display) := by
    simp [printHits, terminated, List.flatMap_map]
  have hscan := congrArg (List.map locationKey)
    (scanFrom_stripped word root (fun info hinfo => h info (mem_sorted.mp hinfo)) none)
  rw [List.map_map, Function.comp_def, List.map_filterMap] at hscan
  rw [hprinted, sed_terminated _ hlines, List.map_map, Function.comp_def, parseLineCoverage,
    List.mem_toFinset, Regex.findall, hscan, List.mem_filterMap]
  simp only [mem_sorted]

end

/-! ## Working directories -/

/-- A working directory with its traces and the debug information of its kernel. -/
structure TracedWorkdir where
  path : Text
  path_ne_nil : path ≠ []
  path_last : path.getLast? ≠ some '/'
  /-- The path of the source tree as the kernel has it, and as `get_linux_source_path` finds it. -/
  root : SourceRoot
  pre : List Component
  ctx : Context
  report : Text
  annotated : Text
  smatchData : SmatchData
  collected : collectSmatchReport report = some smatchData
  traceFiles : List TraceFile
  readable : ∀ file ∈ traceFiles, ¬Panics file

namespace TracedWorkdir

variable (w : TracedWorkdir)

/-- `-f -a` -/
def options : Options := ⟨w.pre, true, true⟩

/-- The location belongs to a row that the traces reach, or to a frame at its beginning. -/
def Located (info : LineInfo) : Prop :=
  ∃ row ∈ w.ctx.rows, row.Reached (addressesOf w.ctx w.smatchData w.traceFiles) ∧
    info ∈ rowLineinfos w.ctx w.pre true row

def Reaches (word : WordClass) (key : Text) : Prop :=
  ∃ info, w.Located info ∧ (readLocation word w.root info).map locationKey = some key

theorem joinPath_eq (inner : Text) (h : inner.head? ≠ some '/') :
    joinPath w.path inner = w.path ++ '/' :: inner := by
  rw [joinPath, if_neg h, if_neg (not_or.mpr ⟨w.path_ne_nil, w.path_last⟩)]

theorem joinPath_linecov : joinPath w.path "traces/linecov.lst".toList = linecovFile w.path := by
  rw [w.joinPath_eq _ (by decide)]
  simp [linecovFile, tracesDir]

end TracedWorkdir

/-! ## The matching jobs -/

/-- A run of the fast matcher on a directory, up to its end. -/
structure MatchJob {S : Type} (R : RangeInclusiveSet S) extends TracedWorkdir where
  nproc : ℕ
  nproc_pos : 0 < nproc
  final : State S
  reachable : (workersOf R ctx smatchData traceFiles nproc).Reachable final
  done : Done final

namespace MatchJob

variable {S : Type} {R : RangeInclusiveSet S} (job : MatchJob R)

def hits : Finset LineInfo := hitsOf R job.ctx job.smatchData job.options job.final

def run (files : Files) : Files × Bool := fastMatch job.root job.path (printHits job.hits) files

def listing : Text := sed (removeText job.root.text) (printHits job.hits)

theorem mem_hits (info : LineInfo) : info ∈ job.hits ↔ job.Located info := by
  have haddresses : covered (R.iter job.final.rangesDb) =
      addressesOf job.ctx job.smatchData job.traceFiles :=
    addresses_of_few_panics job.reachable job.done
      (panicCount_eq_zero job.readable ▸ job.nproc_pos)
  rw [hits, hitsOf, mem_collectHits rfl (R.separated_iter job.final.rangesDb), haddresses]
  rfl

theorem mem_parseLineCoverage_listing {word : WordClass}
    (h : ∀ info, job.Located info → Legible info) (key : Text) :
    key ∈ parseLineCoverage word job.listing ↔ job.Reaches word key := by
  rw [listing, mem_parseLineCoverage_stripped word job.root fun info hinfo =>
    h info ((job.mem_hits info).mp hinfo)]
  simp only [mem_hits]
  rfl

end MatchJob

/-- The jobs one behind the other, up to the first one that fails. -/
def matchAll {S : Type} {R : RangeInclusiveSet S} : List (MatchJob R) → Files → Files × Bool
  | [], files => (files, true)
  | job :: rest, files =>
      match job.run files with
      | (files, true) => matchAll rest files
      | stopped => stopped

theorem linecovFile_ne (workDir other : Text) {inner : Text}
    (h : ¬ "/linecov.lst".toList <:+ inner) (h' : ¬ inner <:+ "/linecov.lst".toList) :
    linecovFile workDir ≠ other ++ inner := by
  intro heq
  have hend : "/linecov.lst".toList <:+ other ++ inner :=
    heq ▸ List.suffix_append (tracesDir workDir) _
  exact (List.suffix_or_suffix_of_suffix hend (List.suffix_append other inner)).elim h h'

theorem linecovFile_injective : Function.Injective linecovFile := fun workDir other h => by
  simpa [linecovFile, tracesDir] using h

section

variable {S : Type} {R : RangeInclusiveSet S}

theorem MatchJob.run_eq (job : MatchJob R) {files : Files}
    (helf : files (targetElf job.path) ≠ none) :
    job.run files = (Function.update files (linecovFile job.path) (some job.listing), true) := by
  obtain ⟨elf, helf⟩ := Option.ne_none_iff_exists'.mp helf
  have hother : targetElf job.path ≠ linecovFile job.path :=
    (linecovFile_ne job.path job.path (by decide) (by decide)).symm
  rw [MatchJob.run, fastMatch, Function.update_of_ne hother, helf]
  simp [MatchJob.listing]

/-- Every job writes its own listing and nothing else. -/
theorem matchAll_eq {jobs : List (MatchJob R)} {files : Files}
    (helf : ∀ job ∈ jobs, files (targetElf job.path) ≠ none) :
    ∃ final, matchAll jobs files = (final, true) ∧
      (∀ name, (∀ job ∈ jobs, name ≠ linecovFile job.path) → final name = files name) ∧
      ((jobs.map fun job => job.path).Nodup →
        ∀ job ∈ jobs, final (linecovFile job.path) = some job.listing) := by
  induction jobs generalizing files with
  | nil => exact ⟨files, rfl, fun _ _ => rfl, by simp⟩
  | cons job rest ih =>
      rw [List.forall_mem_cons] at helf
      have hkept : ∀ other ∈ rest, Function.update files (linecovFile job.path) (some job.listing)
          (targetElf other.path) ≠ none := fun other hother => by
        have hother' : targetElf other.path ≠ linecovFile job.path :=
          (linecovFile_ne job.path other.path (by decide) (by decide)).symm
        rw [Function.update_of_ne hother']
        exact helf.2 other hother
      obtain ⟨final, hfinal, hframe, hlistings⟩ := ih hkept
      refine ⟨final, ?_, fun name hname => ?_, fun hnodup => ?_⟩
      · rw [matchAll, job.run_eq helf.1]
        exact hfinal
      · rw [List.forall_mem_cons] at hname
        rw [hframe name hname.2, Function.update_of_ne hname.1]
      · rw [List.map_cons, List.nodup_cons] at hnodup
        rw [List.forall_mem_cons]
        refine ⟨?_, hlistings hnodup.2⟩
        -- no later job writes the listing again
        rw [hframe, Function.update_self]
        intro other hother hsame
        exact hnodup.1 (linecovFile_injective hsame ▸ List.mem_map_of_mem hother)

end

/-! ## The report of the campaign -/

/-- What the coverage reader finds in front of the matching jobs. -/
structure Traced {S : Type} {R : RangeInclusiveSet S} (jobs : List (MatchJob R)) (files : Files)
    (isDir : Text → Bool) : Prop where
  nodup : (jobs.map fun job => job.path).Nodup
  elf : ∀ job ∈ jobs, files (targetElf job.path) ≠ none
  report : ∀ job ∈ jobs, files (targetSmatchFile job.path) = some job.report
  annotated : ∀ job ∈ jobs, files (annotatedFile job.path) = some job.annotated
  alone : ∀ job ∈ jobs, ∀ f ∈ linecovFiles.tail, files (job.path ++ '/' :: f) = none
  isDir : ∀ job ∈ jobs, isDir job.path = true ∧ files job.path = none
  apart : ∀ job ∈ jobs, ∀ other ∈ jobs, job.path ≠ linecovFile other.path

/-- All files are valid UTF-8. -/
def campaignSystem (isDir : Text → Bool) (files : Files) : FileSystem where
  contents name := (files name).map .decoded
  isDir := isDir

section

variable {S : Type} {R : RangeInclusiveSet S} {word : WordClass} {args : Args}

theorem combineCoverage_absent {fs : FileSystem} {workDir : Text} {names : List Text}
    (h : ∀ f ∈ names, fs.contents (joinPath workDir f) = none) (existingFiles : ℕ)
    (cov : Finset Text) :
    combineCoverage word args fs workDir (existingFiles + 1) cov names = .ok cov := by
  induction names with
  | nil => simp [combineCoverage]
  | cons f rest ih =>
      rw [List.forall_mem_cons] at h
      have hf : fs.isFile (joinPath workDir f) = false := by simp [FileSystem.isFile, h.1]
      rw [combineCoverage, hf, if_neg (by simp)]
      exact ih h.2

/-- Whether the files are combined or not, only the first one is there. -/
theorem combineCoverage_alone {fs : FileSystem} {workDir f listing : Text} {rest : List Text}
    (hlisting : fs.contents (joinPath workDir f) = some (.decoded listing))
    (h : ∀ f ∈ rest, fs.contents (joinPath workDir f) = none) :
    combineCoverage word args fs workDir 0 ∅ (f :: rest) =
      .ok (parseLineCoverage word listing) := by
  have hfile : fs.isFile (joinPath workDir f) = true := by simp [FileSystem.isFile, hlisting]
  have hparse : parseLineCoverageFile word fs (joinPath workDir f) =
      .ok (parseLineCoverage word listing) := by
    simp [parseLineCoverageFile, FileSystem.read, hlisting]
  rw [combineCoverage, if_pos hfile, hparse, bind_ok, combineCoverage_absent h]
  simp

theorem tryGetCoverage_linecov {fs : FileSystem} (w : TracedWorkdir) {listing : Text}
    (hdir : fs.isDir w.path = true) (hfile : fs.contents w.path = none)
    (hlisting : fs.contents (linecovFile w.path) = some (.decoded listing))
    (halone : ∀ f ∈ linecovFiles.tail, fs.contents (w.path ++ '/' :: f) = none) :
    tryGetCoverage word args fs w.path = .ok (parseLineCoverage word listing) := by
  have hhead : ∀ f ∈ linecovFiles.tail, f.head? ≠ some '/' := by decide
  rw [tryGetCoverage, if_neg (by simp [FileSystem.isFile, hfile]), if_neg (by simp [hdir])]
  refine combineCoverage_alone (f := "traces/linecov.lst".toList) ?_ fun f hf => ?_
  · rw [w.joinPath_linecov]
    exact hlisting
  · rw [w.joinPath_eq f (hhead f hf)]
    exact halone f hf

theorem tryFindSmatchFile_annotated {fs : FileSystem} (w : TracedWorkdir)
    (hsmatch : args.smatch = none) (hfile : fs.contents w.path = none)
    (h : (fs.contents (annotatedFile w.path)).isSome = true) :
    tryFindSmatchFile args fs w.path = .ok (some (annotatedFile w.path)) := by
  have hjoin : joinPath w.path "target/smatch_warns_annotated.txt".toList = annotatedFile w.path :=
    w.joinPath_eq _ (by decide)
  rw [tryFindSmatchFile, givenSmatch, hsmatch, Option.filter_none]
  dsimp only
  rw [if_neg (by simp [FileSystem.isFile, hfile]), hjoin, FileSystem.isFile, if_pos h]

/-- An item of the campaign, behind its matching job. -/
structure Listed (w : TracedWorkdir) (listing : Text) (fs : FileSystem) : Prop where
  isDir : fs.isDir w.path = true
  noFile : fs.contents w.path = none
  listing : fs.contents (linecovFile w.path) = some (.decoded listing)
  alone : ∀ f ∈ linecovFiles.tail, fs.contents (w.path ++ '/' :: f) = none
  annotated : fs.contents (annotatedFile w.path) = some (.decoded w.annotated)

variable {fs : FileSystem} {w : TracedWorkdir} {listing : Text}

theorem Listed.readsCoverage (h : Listed w listing fs) :
    tryGetCoverage word args fs w.path = .ok (parseLineCoverage word listing) :=
  tryGetCoverage_linecov w h.isDir h.noFile h.listing h.alone

theorem Listed.readsReport (h : Listed w listing fs) (hsmatch : args.smatch = none) :
    tryFindSmatchFile args fs w.path = .ok (some (annotatedFile w.path)) ∧
      parseSmatchFile fs (annotatedFile w.path) = .ok (parseSmatch w.annotated) := by
  refine ⟨tryFindSmatchFile_annotated w hsmatch h.noFile ?_, ?_⟩
  · simp [h.annotated]
  · simp [parseSmatchFile, FileSystem.read, h.annotated]

theorem Listed.exists_visitItem (h : Listed w listing fs) (hsmatch : args.smatch = none)
    (report : Report) : ∃ report', visitItem word args fs report w.path = .ok report' := by
  obtain ⟨hfile, hparse⟩ := h.readsReport hsmatch
  rw [visitItem, h.readsCoverage, bind_ok, hfile, bind_ok]
  dsimp only
  rw [hparse, bind_ok]
  exact ⟨_, rfl⟩

theorem Listed.reportOf_eq (h : Listed w listing fs) (hsmatch : args.smatch = none) :
    reportOf args fs w.path = parseSmatch w.annotated := by
  obtain ⟨hfile, hparse⟩ := h.readsReport hsmatch
  simp only [reportOf, hfile, hparse]

theorem Listed.coveredBy_iff (h : Listed w listing fs) (hsmatch : args.smatch = none) (e : Entry) :
    CoveredBy word args fs w.path e ↔
      e ∈ parseSmatch w.annotated ∧ e.location ∈ parseLineCoverage word listing := by
  rw [CoveredBy, h.reportOf_eq hsmatch, coverageOf, h.readsCoverage]

theorem exists_visitItems {items : List Text}
    (h : ∀ item ∈ items, ∀ report, ∃ report', visitItem word args fs report item = .ok report')
    (report : Report) : ∃ final, visitItems word args fs report items = .ok final := by
  induction items generalizing report with
  | nil => exact ⟨report, rfl⟩
  | cons item rest ih =>
      rw [List.forall_mem_cons] at h
      obtain ⟨next, hnext⟩ := h.1 report
      obtain ⟨final, hfinal⟩ := ih h.2 next
      exact ⟨final, by rw [visitItems, hnext, bind_ok, hfinal]⟩

end

section

variable {S : Type} {R : RangeInclusiveSet S} {jobs : List (MatchJob R)} {files final : Files}
  {isDir : Text → Bool}

theorem Traced.listed (h : Traced jobs files isDir)
    (hframe : ∀ name, (∀ job ∈ jobs, name ≠ linecovFile job.path) → final name = files name)
    (hlistings : ∀ job ∈ jobs, final (linecovFile job.path) = some job.listing) {job : MatchJob R}
    (hjob : job ∈ jobs) :
    Listed job.toTracedWorkdir job.listing (campaignSystem isDir final) where
  isDir := (h.isDir job hjob).1
  noFile := by
    have hkept := hframe job.path (h.apart job hjob)
    simp [campaignSystem, hkept, (h.isDir job hjob).2]
  listing := by simp [campaignSystem, hlistings job hjob]
  alone f hf := by
    have hends : ∀ f ∈ linecovFiles.tail, ¬ "/linecov.lst".toList <:+ '/' :: f ∧
        ¬ '/' :: f <:+ "/linecov.lst".toList := by
      decide
    have hkept := hframe (job.path ++ '/' :: f) fun other _ =>
      (linecovFile_ne other.path job.path (hends f hf).1 (hends f hf).2).symm
    simp [campaignSystem, hkept, h.alone job hjob f hf]
  annotated := by
    have hkept := hframe (annotatedFile job.path) fun other _ =>
      (linecovFile_ne other.path job.path (by decide) (by decide)).symm
    simp [campaignSystem, hkept, h.annotated job hjob]

end

def tracedKernel : Context where
  findFrames addr := [⟨some [if addr < 0x48 then 'f' else 'g'], some ⟨"/src/a.c".toList, 1⟩⟩]
  rows := [⟨0x26, 0x2e, ⟨"/src/a.c".toList, 5⟩, by decide⟩,
    ⟨0x3a, 0x46, ⟨"/src/virtio-rng.c".toList, 6⟩, by decide⟩,
    ⟨0x52, 0x5a, ⟨"/src/a.c".toList, 7⟩, by decide⟩]
  findLocationRange := probeRows _
  located := by simp
  mem_findLocationRange := mem_probeRows _

def sampleInfo (file : String) (line : UInt32) : LineInfo := .ofLocation ⟨file.toList, line⟩

/-- The job of one thread with the given steps. -/
def TracedWorkdir.job (w : TracedWorkdir) (schedule : List Action)
    (h : ((workersOf .lists w.ctx w.smatchData w.traceFiles 1).run
      (workersOf .lists w.ctx w.smatchData w.traceFiles 1).init schedule).isSome)
    (hdone : Done (Option.get _ h)) : MatchJob .lists where
  toTracedWorkdir := w
  nproc := 1
  nproc_pos := one_pos
  final := Option.get _ h
  reachable := Machine.Reachable.run (.init _) schedule (by simp)
  done := hdone

def firstWorkdir : TracedWorkdir where
  path := ['A']
  path_ne_nil := by simp
  path_last := by decide
  root := sampleRoot
  pre := components "/src/".toList
  ctx := tracedKernel
  report := "a.c:5 f() warn\nvirtio-rng.c:6 f() warn\n".toList
  annotated := "safe\ta.c:5 f() warn\nvirtio-rng.c:6 f() warn\n".toList
  smatchData := [(sampleInfo "a.c" 5, ['f']), (sampleInfo "virtio-rng.c" 6, ['f'])]
  collected := by decide +kernel
  traceFiles := twoFiles
  readable := twoFiles_readable

def secondWorkdir : TracedWorkdir :=
  { firstWorkdir with
    path := ['B']
    path_ne_nil := by simp
    path_last := by decide
    report := "a.c:5 f() warn\na.c:7 f() warn\n".toList
    annotated := "a.c:5 f() warn\na.c:7 f() warn\n".toList
    smatchData := [(sampleInfo "a.c" 5, ['f']), (sampleInfo "a.c" 7, ['f'])]
    collected := by decide +kernel }

def sampleJobs : List (MatchJob .lists) :=
  [firstWorkdir.job mergeTwoFiles (by decide +kernel) (by decide +kernel),
    secondWorkdir.job mergeTwoFiles (by decide +kernel) (by decide +kernel)]

def sampleTree : Files := fun name => List.lookup name
  [("A/target/vmlinux".toList, []), ("A/target/smatch_warns.txt".toList, firstWorkdir.report),
    ("A/target/smatch_warns_annotated.txt".toList, firstWorkdir.annotated),
    ("B/target/vmlinux".toList, []), ("B/target/smatch_warns.txt".toList, secondWorkdir.report),
    ("B/target/smatch_warns_annotated.txt".toList, secondWorkdir.annotated)]

def sampleDirs (name : Text) : Bool := name = ['A'] || name = ['B']

def fastArgs : Args := ⟨[['B'], ['A']], none, true, false, false, false, []⟩

theorem traced_sample : Traced sampleJobs sampleTree sampleDirs where
  nodup := by decide
  elf := by decide
  report := by decide
  annotated := by decide
  alone := by decide
  isDir := by decide
  apart := by decide

end TdvfFuzz.SmatchMatch
