import TdvfFuzz.Audit.Completion
import TdvfFuzz.Audit.Partition
import TdvfFuzz.AuditFilter.Kept

/-!
# From the report of a kernel to its annotated findings

`smatch_audit.sh` filters the report of a build and transfers the reviewed
results of an earlier kernel to what is left.  The annotated file has one record
for each finding in scope, up to the first that the transfer cannot read.
-/

namespace TdvfFuzz.AuditFilter

open TdvfFuzz.Foundation

/-! ## The script -/

def smatchWarns : Text := "smatch_warns.txt".toList

def smatchFiltered : Text := "smatch_warns_filtered.txt".toList

def smatchTransferred : Text := "smatch_warns_annotated.txt".toList

def filterCall : Args := ⟨smatchWarns, smatchFiltered, true⟩

def transferCall (smatchAnnotated : Text) : Audit.Args :=
  ⟨smatchAnnotated, smatchFiltered, smatchTransferred, true, false⟩

inductive AuditExit where
  | filter (message : Text)
  | transfer (exit : Audit.Exit)
  deriving DecidableEq, Repr

/-- The part `postprocess smatch report` of `analyze_kernel`, under `set -e`. -/
def postprocess (smatchAnnotated : Text) (files : Files) : Files × AuditExit :=
  match main filterCall files with
  | (files, .failed message) => (files, .filter message)
  | (files, .finished) =>
      let (files, exit) := Audit.main (transferCall smatchAnnotated) files
      (files, .transfer exit)

/-! ## What the transfer reads -/

theorem strip_bare (x : Text) : strip (bare x) = strip x := by
  have hdrop : ∀ x : Text, (x.dropWhile (· == '\n')).dropWhile isSpace = x.dropWhile isSpace := by
    intro x
    induction x with
    | nil => rfl
    | cons c x ih =>
        by_cases hc : c = '\n'
        · subst hc
          rw [List.dropWhile_cons_of_pos (by rfl), ih, List.dropWhile_cons_of_pos (by decide)]
        · rw [List.dropWhile_cons_of_neg (by simpa using hc)]
  rw [strip, strip, stripBy, stripBy, bare, hdrop]

/-- The transfer sees the records of the output, stripped. -/
theorem markedRecords_eq (output : Text) :
    Audit.markedRecords output =
      ((writtenRecords output).map strip).filter fun n =>
        n ≠ [] ∧ (Audit.resultId n).isSome := by
  have hstrip : (output.splitOn ';').map strip =
      ((output.splitOn ';').map bare).map strip := by
    rw [List.map_map]
    exact List.map_congr_left fun x _ => (strip_bare x).symm
  rw [Audit.markedRecords, hstrip, writtenRecords]
  generalize (output.splitOn ';').map bare = pieces
  rw [List.filter_map, List.filter_map, List.filter_filter]
  congr 1
  apply List.filter_congr
  intro x _
  cases x <;> simp [strip, stripBy]

/-- The output of the filter. -/
def filteredText (data : Text) : Text :=
  terminated ';' ((((dataClean data).splitOn ';').filter passes).eraseDups)

/-- Trimming a record only shortens the message. -/
theorem Record.exists_strip (r : Record) : ∃ rest, strip r.text = r.header ++ rest := by
  obtain ⟨first, path, hpath⟩ := List.exists_cons_of_ne_nil r.path_ne_nil
  have hfirst : isSpace first = false := r.words first (by simp [hpath])
  have hleft : r.text.dropWhile isSpace = r.text := by
    rw [Audit.Finding.text, Audit.Finding.header, hpath]
    simp [hfirst]
  obtain ⟨before, hheader⟩ : ∃ before, r.header = before ++ ['\x7d'] := ⟨_, rfl⟩
  have htext : r.text = before ++ '\x7d' :: (Audit.newlineTab ++ r.message) := by
    simp [Audit.Finding.text, hheader]
  refine ⟨(Audit.newlineTab ++ r.message).rdropWhile isSpace, ?_⟩
  rw [strip, stripBy, hleft, htext, rdropWhile_append_cons _ _ (by decide), hheader]
  simp

theorem Record.accepts_id (r : Record) (rest : Text) (before : Option Char) :
    Audit.idPattern.Accepts before ('\x7b' :: (r.id ++ ['\x7d'])) rest [r.id] := by
  refine ⟨['\x7b'], r.id ++ ['\x7d'], [], [r.id], rfl, rfl, ⟨⟨_, rfl, by decide⟩, rfl⟩, r.id,
    ['\x7d'], [r.id], [], rfl, rfl, ⟨[], ⟨r.idChars, ?_, rfl⟩, rfl⟩, ⟨_, rfl, by decide⟩, rfl⟩
  exact List.length_pos_of_ne_nil r.id_ne_nil

theorem Record.marked (r : Record) :
    strip r.text ≠ [] ∧ (Audit.resultId (strip r.text)).isSome := by
  obtain ⟨rest, hstrip⟩ := r.exists_strip
  have htext : strip r.text = (r.path ++ ':' :: r.line ++ ' ' :: r.func ++ "() ".toList ++
      r.level ++ [':', ' ']) ++ ('\x7b' :: (r.id ++ ['\x7d']) ++ rest) := by
    rw [hstrip, Audit.Finding.header]
    simp
  rw [htext]
  exact ⟨by simp, Audit.resultId_isSome (Regex.search_isSome _ (by simp) (r.accepts_id _))⟩

theorem markedRecords_of_keepsScope {report : Report} (h : KeepsScope report.records) :
    Audit.markedRecords (filteredText report.text) = report.wanted.map strip := by
  rw [filteredText, markedRecords_eq, filter_results, writtenRecords_passing, h.written,
    ← Report.wanted, List.filter_eq_self]
  intro n hn
  obtain ⟨x, hx, rfl⟩ := List.mem_map.mp hn
  obtain ⟨r, -, rfl⟩ := List.mem_map.mp (List.mem_eraseDups.mp hx)
  simpa using r.marked

/-! ## The two scripts in a row -/

theorem main_other {args : Args} {files : Files} {name : Text} (h : name ≠ args.outputFile) :
    (main args files).1 name = files name := by
  unfold main
  split
  · rfl
  · split
    · rfl
    · exact Function.update_of_ne h _ _

/-- The files that the two scripts write. -/
def writtenFiles : List Text :=
  [smatchFiltered, smatchTransferred, smatchTransferred ++ ".tmp.old".toList,
    smatchTransferred ++ ".tmp.new".toList]

/-- The transfer reads what the filter has written, whatever the raw report is. -/
theorem postprocess_places {smatchAnnotated data dataAnalyzed : Text} {files : Files}
    (hwarns : files smatchWarns = some data)
    (hanalyzed : files smatchAnnotated = some dataAnalyzed)
    (hbaseline : smatchAnnotated ∉ writtenFiles) :
    ∃ done rest transferred exit,
      (postprocess smatchAnnotated files).2 = .transfer exit ∧
      Audit.markedRecords (filteredText data) = done ++ rest ∧
      List.Forall₂ (Audit.Placed (dataAnalyzed.splitOn ';')) done transferred ∧
      (postprocess smatchAnnotated files).1 smatchTransferred =
        some (Audit.outputText transferred) ∧
      (exit = .finished ∧ rest = [] ∨
        ∃ n more e, rest = n :: more ∧ exit = .raised e ∧
          Audit.transferRecord (dataAnalyzed.splitOn ';') n = .error e) ∧
      ∀ name, name ∉ writtenFiles → (postprocess smatchAnnotated files).1 name = files name := by
  have hforce : (files filterCall.outputFile).isSome → filterCall.force = true := fun _ => rfl
  obtain ⟨hfinished, houtput⟩ := main_eq hwarns hforce
  have hother : ∀ name, name ≠ filterCall.outputFile →
      (main filterCall files).1 name = files name := fun _ => main_other
  cases hfilter : main filterCall files with
  | mk filtered exit =>
      simp only [hfilter] at hfinished houtput hother
      subst hfinished
      have hkept : ∀ name, name ∉ writtenFiles → filtered name = files name :=
        fun name hname => hother name fun h => hname (by simp [writtenFiles, h, filterCall])
      have hruns : ¬ Audit.Refuses (transferCall smatchAnnotated) filtered := by
        rintro (hnew | hnone | ⟨-, hforce⟩)
        · rw [show (transferCall smatchAnnotated).inputNew = filterCall.outputFile from rfl,
            houtput] at hnew
          simp at hnew
        · rw [show (transferCall smatchAnnotated).inputAnalyzed = smatchAnnotated from rfl,
            hkept _ hbaseline, hanalyzed] at hnone
          simp at hnone
        · simp [transferCall] at hforce
      obtain ⟨data', dataNew, done, rest, transferred, hdata', hnew, hsplit, hplaced, hend⟩ :=
        Audit.main_places hruns
      obtain rfl : data' = dataAnalyzed :=
        Option.some.inj (hdata'.symm.trans ((hkept _ hbaseline).trans hanalyzed))
      obtain rfl : dataNew = filteredText data := Option.some.inj (hnew.symm.trans houtput)
      have hrun : postprocess smatchAnnotated files =
          ((Audit.main (transferCall smatchAnnotated) filtered).1,
            .transfer (Audit.main (transferCall smatchAnnotated) filtered).2) := by
        rw [postprocess, hfilter]
      have hframe : ∀ {cleaned files'}, Audit.Leaves (transferCall smatchAnnotated) filtered
          transferred cleaned files' → ∀ name, name ∉ writtenFiles → files' name = files name := by
        intro cleaned files' hleaves name hname
        rw [← hkept name hname]
        simp only [writtenFiles, List.mem_cons, List.not_mem_nil, or_false, not_or] at hname
        exact hleaves.frame name hname.2.1 hname.2.2.1 hname.2.2.2
      rw [hrun]
      rcases hend with ⟨hexit, hrest, hleaves⟩ | ⟨n, more, e, hrest, herror, hexit, hleaves⟩
      · exact ⟨done, rest, transferred, _, rfl, hsplit, hplaced, hleaves.analyzed,
          .inl ⟨hexit, hrest⟩, hframe hleaves⟩
      · exact ⟨done, rest, transferred, _, rfl, hsplit, hplaced, hleaves.analyzed,
          .inr ⟨n, more, e, hrest, hexit, herror⟩, hframe hleaves⟩

/--
Whatever the baseline holds, the annotated file has one record for each finding
in scope, in order, until one raises; the raw report and the baseline stay.
-/
theorem postprocess_annotates (report : Report) (smatchAnnotated : Text) (files : Files)
    {dataAnalyzed : Text} (hkeeps : KeepsScope report.records)
    (hwarns : files smatchWarns = some report.text)
    (hanalyzed : files smatchAnnotated = some dataAnalyzed)
    (hbaseline : smatchAnnotated ∉ writtenFiles) :
    ∃ done rest transferred exit,
      (postprocess smatchAnnotated files).2 = .transfer exit ∧
      report.wanted.map strip = done ++ rest ∧
      List.Forall₂ (Audit.Placed (dataAnalyzed.splitOn ';')) done transferred ∧
      (postprocess smatchAnnotated files).1 smatchTransferred =
        some (Audit.outputText transferred) ∧
      (exit = .finished ∧ rest = [] ∨
        ∃ n more e, rest = n :: more ∧ exit = .raised e ∧
          Audit.transferRecord (dataAnalyzed.splitOn ';') n = .error e) ∧
      ∀ name, name ∉ writtenFiles → (postprocess smatchAnnotated files).1 name = files name := by
  rw [← markedRecords_of_keepsScope hkeeps]
  exact postprocess_places hwarns hanalyzed hbaseline

/-! ## A report with two findings in scope -/

def memoryRecord : Record where
  path := "mm/memory.c".toList
  line := "5094".toList
  func := "generic_access_phys".toList
  level := "error".toList
  id := "7575797955557957".toList
  message := "'check_host_input' read from the host using function 'memcpy_fromio'".toList
  words := by decide +kernel
  idChars := by decide
  oneLine := by decide +kernel
  named := by decide +kernel
  path_ne_nil := by decide
  colon := by decide +kernel
  id_ne_nil := by decide
  unseparated := by decide +kernel

def kernelReport : Report where
  lines := pciRecord.lines ++ soundRecord.lines ++ [scopeWarning] ++ memoryRecord.lines ++ [[]]
  records := [pciRecord, soundRecord, memoryRecord]
  oneLine := by decide +kernel
  interleaved := by
    rw [List.filter_append, List.filter_append, List.filter_append, List.filter_append,
      pciRecord.filter_lines, soundRecord.filter_lines, memoryRecord.filter_lines,
      filter_scopeWarning]
    rfl

def reviewedFile : Text := "bkc/audit/sample_output/5.15-rc1/analyzed".toList

def reviewedData : Text :=
  ("excluded\tdrivers/pci/msi.c:9 msi_setup() error: \x7b2\x7d\n\t'check_host_input' " ++
    "a tainted value from the host 'pos' used in function 'f';\n").toList

def auditFiles : Files := fun name =>
  if name = smatchWarns then some kernelReport.text
  else if name = reviewedFile then some reviewedData
  else none

theorem postprocess_annotates_pci :
    ∃ done rest transferred exit,
      (postprocess reviewedFile auditFiles).2 = .transfer exit ∧
      kernelReport.wanted.map strip = done ++ rest ∧
      List.Forall₂ (Audit.Placed (reviewedData.splitOn ';')) done transferred ∧
      (postprocess reviewedFile auditFiles).1 smatchTransferred =
        some (Audit.outputText transferred) ∧
      (exit = .finished ∧ rest = [] ∨
        ∃ n more e, rest = n :: more ∧ exit = .raised e ∧
          Audit.transferRecord (reviewedData.splitOn ';') n = .error e) ∧
      ∀ name, name ∉ writtenFiles →
        (postprocess reviewedFile auditFiles).1 name = auditFiles name := by
  have hkeeps : KeepsScope kernelReport.records := by
    refine ⟨?_, fun r hr => ?_⟩
    · unfold FirstKept
      decide +kernel
    · rcases List.mem_pair.mp hr with rfl | rfl <;> unfold LaterKept <;> decide +kernel
  exact postprocess_annotates kernelReport reviewedFile auditFiles hkeeps (if_pos rfl)
    (by decide +kernel) (by decide +kernel)

example : (postprocess reviewedFile auditFiles).1 smatchTransferred =
    some ("excluded\t".toList ++ pciRecord.text ++ ";\n".toList ++ memoryRecord.text ++
      ";\n".toList) := by
  decide +kernel

end TdvfFuzz.AuditFilter
