import Mathlib.Logic.Function.Basic
import TdvfFuzz.Foundation.Python

/-!
# Transferring review results to a new report

`transfer_results.py` reads two `;`-separated reports.  For every new record it
walks the analyzed list and stops at the first record that one of four tests
accepts; the record written depends on which test that was.
-/

namespace TdvfFuzz.Audit

open TdvfFuzz.Foundation

/-! ## Fields of a record -/

def newlineTab : Text := ['\n', '\t']

/-- `[A-Za-z0-9_]` -/
def isIdChar (c : Char) : Bool := c.isAlphanum || c == '_'

/-- `\{([A-Za-z0-9_]+)\}` -/
def idPattern : Regex :=
  .seq (.cls (· == '\x7b')) (.seq (.group (.rep true 1 isIdChar)) (.cls (· == '\x7d')))

/-- `\[.*?\]` -/
def commentPattern : Regex :=
  .seq (.cls (· == '[')) (.seq (.rep false 0 (· != '\n')) (.cls (· == ']')))

/-- `re.search(..).group(1)` of the marker pattern. -/
def resultId (s : Text) : Option Text :=
  (idPattern.search s).bind fun m => m.groups.head?

@[simp] theorem resultId_nil : resultId [] = none := rfl

/-- `s.split(':')[1].split(' ')[1]` -/
def funcName (s : Text) : Except PyError Text := do
  let location ← item (s.splitOn ':') 1
  item (location.splitOn ' ') 1

/-- `s.split(':')[1].split(' ')[0]` -/
def lineNum (s : Text) : Except PyError Text := do
  let location ← item (s.splitOn ':') 1
  item (location.splitOn ' ') 0

def statusAnalyzed (s : Text) : Text :=
  let tmp := firstField '\n' s
  if '\t' ∈ tmp then strip (firstField '\t' tmp) else []

def pathAnalyzed (s : Text) : Text :=
  let head := firstField ':' s
  match head.splitOn '\t' with
  | _ :: second :: _ => strip second
  | _ => strip head

/-- The bracketed texts of the third newline-TAB field, if there is one. -/
def commentAnalyzed (s : Text) : List Text :=
  match splitText newlineTab s with
  | _ :: _ :: third :: _ => (commentPattern.findall third).map Match.consumed
  | _ => []

/-! ## The inner loop -/

structure NewRecord where
  resultNew : Text
  pathNew : Text
  resultIdNew : Text
  funcNameNew : Text
  deriving DecidableEq, Repr

/-- Why an iteration of the inner loop continues or ends the loop. -/
inductive Verdict where
  | next
  | verbatim
  | sameId
  | otherId
  deriving DecidableEq, Repr

def nativeRead : Text :=
  "read from the host using function 'native_read_msr'".toList

def paravirtRead : Text :=
  "read from the host using function 'paravirt_read_msr'".toList

/-- `s.split(reader)[1].split('\'')[1]` -/
def variableName (reader s : Text) : Except PyError Text := do
  let tail ← item (splitText reader s) 1
  item (tail.splitOn '\'') 1

/-- Same path and function, different ids: renamed MSR readers or excluded code. -/
def judgeOtherId (new : NewRecord) (resultAnalyzed : Text) :
    Except PyError Verdict := do
  let lineNumAnalyzed ← lineNum resultAnalyzed
  let lineNumNew ← lineNum new.resultNew
  if nativeRead <:+: new.resultNew ∧ paravirtRead <:+: resultAnalyzed then do
    let varAnalyzed ← variableName "paravirt_read_msr'".toList resultAnalyzed
    let varNew ← variableName "native_read_msr'".toList new.resultNew
    if lineNumAnalyzed ≠ lineNumNew ∨ varAnalyzed ≠ varNew then .ok .next
    else .ok .otherId
  else if statusAnalyzed resultAnalyzed ≠ "excluded".toList then .ok .next
  else .ok .otherId

/-- The tests of one iteration, on a record that is already stripped. -/
def judge (new : NewRecord) (resultAnalyzed : Text) : Except PyError Verdict :=
  if resultAnalyzed = [] then .ok .next
  else if new.resultNew <:+: resultAnalyzed then .ok .verbatim
  else
    match resultId resultAnalyzed with
    | none => .ok .next
    | some resultIdAnalyzed =>
        if (resultAnalyzed.splitOn ':').length < 2 then .ok .next
        else do
          let funcNameAnalyzed ← funcName resultAnalyzed
          if pathAnalyzed resultAnalyzed = new.pathNew ∧
              funcNameAnalyzed = new.funcNameNew then
            if resultIdAnalyzed ≠ new.resultIdNew then
              judgeOtherId new resultAnalyzed
            else .ok .sameId
          else .ok .next

/-- The new record with the status and the first comment of an old one. -/
def annotate (status : Text) (comments : List Text) (resultNew : Text) : Text :=
  (if status = [] then resultNew else status ++ '\t' :: resultNew) ++
    match comments with
    | [] => []
    | comment :: _ => newlineTab ++ comment

/-- The record written at the end of the loop, `none` for `continue`. -/
def written (new : NewRecord) (resultAnalyzed : Text) : Verdict → Option Text
  | .next => none
  | .verbatim => some resultAnalyzed
  | .sameId | .otherId =>
      some (annotate (statusAnalyzed resultAnalyzed)
        (commentAnalyzed resultAnalyzed) new.resultNew)

/-- `for result_analyzed in result_list_analyzed`; `none` if no record matched. -/
def findAnalyzed (new : NewRecord) : List Text → Except PyError (Option Text)
  | [] => .ok none
  | resultAnalyzed :: rest => do
      let verdict ← judge new (strip resultAnalyzed)
      match written new (strip resultAnalyzed) verdict with
      | some record => .ok (some record)
      | none => findAnalyzed new rest

/-! ## The outer loop -/

structure Transferred where
  record : Text
  found : Bool
  deriving DecidableEq, Repr

/-- The variables set up for a stripped record; `none` without a marker. -/
def newRecord (resultNew : Text) : Except PyError (Option NewRecord) :=
  match resultId resultNew with
  | none => .ok none
  | some resultIdNew => do
      let funcNameNew ← funcName resultNew
      .ok (some ⟨resultNew, strip (firstField ':' resultNew), resultIdNew, funcNameNew⟩)

/-- The body of the outer loop on a stripped record. -/
def transferRecord (resultListAnalyzed : List Text) (resultNew : Text) :
    Except PyError (Option Transferred) :=
  if resultNew = [] then .ok none
  else do
    match ← newRecord resultNew with
    | none => .ok none
    | some new =>
        match ← findAnalyzed new resultListAnalyzed with
        | some record => .ok (some ⟨record, true⟩)
        | none => .ok (some ⟨resultNew, false⟩)

def terminator : Text := ";\n".toList

structure Outputs where
  analyzed : Text := []
  old : Text := []
  new : Text := []
  deriving DecidableEq, Repr

def Outputs.write (outputs : Outputs) (t : Bool) (transferred : Transferred) :
    Outputs :=
  let line := transferred.record ++ terminator
  { analyzed := outputs.analyzed ++ line
    old := if t ∧ transferred.found then outputs.old ++ line else outputs.old
    new := if t ∧ ¬ transferred.found then outputs.new ++ line else outputs.new }

/-- `for result_new in result_list_new`, with what was written when it ends. -/
def transferAll (t : Bool) (resultListAnalyzed : List Text) :
    List Text → Outputs → Outputs × Option PyError
  | [], outputs => (outputs, none)
  | resultNew :: rest, outputs =>
      match transferRecord resultListAnalyzed (strip resultNew) with
      | .error e => (outputs, some e)
      | .ok none => transferAll t resultListAnalyzed rest outputs
      | .ok (some transferred) =>
          transferAll t resultListAnalyzed rest (outputs.write t transferred)

/-! ## The script -/

structure Args where
  inputAnalyzed : Text
  inputNew : Text
  outputFile : Text
  force : Bool
  t : Bool
  deriving DecidableEq, Repr

inductive Exit where
  | finished
  | failed (message : Text)
  | raised (e : PyError)
  deriving DecidableEq, Repr

def main (args : Args) (files : Files) : Files × Exit :=
  match files args.inputNew, files args.inputAnalyzed with
  | none, _ =>
      (files, .failed ("Error: New input file ".toList ++ args.inputNew ++
        " does not exist.".toList))
  | _, none =>
      (files, .failed ("Error: Analyzed input file ".toList ++
        args.inputAnalyzed ++ " does not exist.".toList))
  | some dataNew, some dataAnalyzed =>
      if (files args.outputFile).isSome ∧ args.force = false then
        (files, .failed ("Error: Output ".toList ++ args.outputFile ++
          " already exists. Add --force to overwrite.".toList))
      else
        let tmpNewFile := args.outputFile ++ ".tmp.new".toList
        let tmpOldFile := args.outputFile ++ ".tmp.old".toList
        let (outputs, error) := transferAll args.t (dataAnalyzed.splitOn ';')
          (dataNew.splitOn ';') {}
        let files := Function.update (Function.update (Function.update files
          tmpNewFile (some outputs.new)) tmpOldFile (some outputs.old))
          args.outputFile (some outputs.analyzed)
        match error with
        | some e => (files, .raised e)
        | none =>
            if args.t then (files, .finished)
            else (Function.update (Function.update files tmpNewFile none)
              tmpOldFile none, .finished)

end TdvfFuzz.Audit
