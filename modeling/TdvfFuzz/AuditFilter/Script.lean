import Mathlib.Data.Finset.Basic
import TdvfFuzz.Audit.Transfer
import TdvfFuzz.Foundation.Records

/-!
# `process_smatch_output.py`

The script keeps the lines of a smatch report that belong to findings, splits
them at `;` and drops the findings outside the audited subsystems.
-/

namespace TdvfFuzz.AuditFilter

open TdvfFuzz.Foundation

def smatchPatternName : Text := "check_host_input".toList

def spectre : Text := "spectre".toList

def tdxAllowedDrivers : List Text :=
  ["drivers/virtio", "drivers/block/virtio_blk.c",
    "drivers/net/virtio_net.c", "drivers/char/virtio_console.c",
    "drivers/acpi", "drivers/pci", "drivers/rtc/rtc-mc146818-lib.c",
    "drivers/net/tun.c", "drivers/net/tap.c", "drivers/firmware/efi",
    "drivers/input/input.c", "drivers/tty/hvc/hvc_console.c"].map String.toList

def parentDir : Text := "../".toList

def soundDir : Text := "sound/".toList

def samplesDir : Text := "samples/".toList

def driversDir : Text := "drivers/".toList

def curDriversDir : Text := "./drivers/".toList

def controllerDir : Text := "drivers/pci/controller/".toList

/-! ## Lines -/

/-- The lines without an id, the pattern's name or `spectre`. -/
def noise (line : Text) : Bool :=
  (Audit.idPattern.search line).isNone ∧ ¬ smatchPatternName <:+: line ∧ ¬ spectre <:+: line

def cleanLine (line : Text) : Text :=
  (if spectre <:+: line then line ++ [';'] else line) ++ ['\n']

def dataClean (data : Text) : Text :=
  ((data.splitOn '\n').filter fun line => !noise line).flatMap cleanLine

/-! ## Results -/

/-- The tests behind `results_seen.add(result)`. -/
def excluded (result : Text) : Bool :=
  '\n' :: soundDir <+: result ∨ '\n' :: samplesDir <+: result ∨
    ('\n' :: driversDir <+: result ∨ '\n' :: curDriversDir <+: result) ∧
      (controllerDir <:+: result ∨ ∀ x ∈ tdxAllowedDrivers, ¬ x <:+: result)

/-- `for result in result_list`, with the texts in `results_seen`. -/
def writeResults : Finset Text → List Text → Text
  | _, [] => []
  | resultsSeen, result :: rest =>
      if result = [] ∨ result = ['\n'] ∨ result = [';'] then writeResults resultsSeen rest
      else if result ∈ resultsSeen then writeResults resultsSeen rest
      else if parentDir <:+: result then writeResults resultsSeen rest
      else if excluded result then writeResults (insert result resultsSeen) rest
      else result ++ [';'] ++ writeResults (insert result resultsSeen) rest

structure Args where
  inputFile : Text
  outputFile : Text
  force : Bool
  deriving DecidableEq, Repr

inductive Exit where
  | finished
  | failed (message : Text)
  deriving DecidableEq, Repr

def main (args : Args) (files : Files) : Files × Exit :=
  match files args.inputFile with
  | none =>
      (files, .failed ("Error: Input file ".toList ++ args.inputFile ++
        " does not exist".toList))
  | some data =>
      if (files args.outputFile).isSome ∧ args.force = false then
        (files, .failed ("Error: Output ".toList ++ args.outputFile ++
          " already exists.Add --force to overwrite.".toList))
      else
        (Function.update files args.outputFile
          (some (writeResults ∅ ((dataClean data).splitOn ';'))), .finished)

/-! ## What is written -/

/-- A result that passes all tests except the one for duplicates. -/
def passes (result : Text) : Bool :=
  result ≠ [] ∧ result ≠ ['\n'] ∧ result ≠ [';'] ∧ ¬ parentDir <:+: result ∧
    excluded result = false

theorem writeResults_eq (resultsSeen : Finset Text) (results : List Text) :
    writeResults resultsSeen results =
      terminated ';' ((results.filter fun result =>
        passes result && decide (result ∉ resultsSeen)).eraseDups) := by
  induction results generalizing resultsSeen with
  | nil => rfl
  | cons result rest ih =>
      have hskip : ∀ {seen : Finset Text}, passes result = false →
          (rest.filter fun x => passes x && decide (x ∉ insert result seen)) =
            rest.filter fun x => passes x && decide (x ∉ seen) := by
        intro seen hfails
        apply List.filter_congr
        intro x _
        by_cases hx : x = result
        · simp [hx, hfails]
        · simp [hx]
      rw [writeResults]
      split_ifs with hblank hseen hparent hexcluded
      · have hfails : passes result = false := by
          rcases hblank with h | h | h <;> simp [passes, h]
        rw [ih, List.filter_cons_of_neg (by simp [hfails])]
      · rw [ih, List.filter_cons_of_neg (by simp [hseen])]
      · have hfails : passes result = false := by simp [passes, hparent]
        rw [ih, List.filter_cons_of_neg (by simp [hfails])]
      · have hfails : passes result = false := by simp [passes, hexcluded]
        rw [ih, hskip hfails, List.filter_cons_of_neg (by simp [hfails])]
      · have hpasses : passes result = true := by
          simp only [not_or] at hblank
          simp [passes, hblank, hparent, hexcluded]
        rw [ih, List.filter_cons_of_pos (by simp [hpasses, hseen]), List.eraseDups_cons,
          List.filter_filter]
        have hrest : (rest.filter fun x => passes x && decide (x ∉ insert result resultsSeen)) =
            rest.filter fun x => !(x == result) && (passes x && decide (x ∉ resultsSeen)) := by
          apply List.filter_congr
          intro x _
          by_cases hx : x = result <;> simp [hx]
        rw [hrest]
        simp [terminated]

theorem main_eq {args : Args} {files : Files} {data : Text}
    (hinput : files args.inputFile = some data)
    (hforce : (files args.outputFile).isSome → args.force = true) :
    (main args files).2 = .finished ∧
      (main args files).1 args.outputFile =
        some (terminated ';'
          ((((dataClean data).splitOn ';').filter passes).eraseDups)) := by
  have hwrites : ¬ ((files args.outputFile).isSome ∧ args.force = false) := by
    rintro ⟨hsome, hfalse⟩
    simp [hforce hsome] at hfalse
  rw [main, hinput]
  dsimp only
  rw [if_neg hwrites]
  have hunseen : (fun result => passes result && decide (result ∉ (∅ : Finset Text))) = passes := by
    funext result
    rw [decide_eq_true (Finset.notMem_empty result), Bool.and_true]
  refine ⟨rfl, (Function.update_self ..).trans ?_⟩
  rw [writeResults_eq, hunseen]

end TdvfFuzz.AuditFilter
