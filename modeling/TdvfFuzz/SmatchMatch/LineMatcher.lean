import Mathlib.Data.Finset.Insert
import TdvfFuzz.Foundation.Dict
import TdvfFuzz.Foundation.Integers
import TdvfFuzz.Foundation.Lines
import TdvfFuzz.Smatcher.Matcher

/-!
# The line matcher of `smatch_match.py`

`main` prints the lines of a report whose location is a key of `line2addr`,
which the parser of `addr2line.lst` fills.
-/

namespace TdvfFuzz.SmatchMatch

open TdvfFuzz.Foundation
open TdvfFuzz.Smatcher (notSpace isDecimal Contents FileSystem)

/-! ## Frames of the listing -/

/-- `[\da-f]`, where `\d` is a decimal digit of any script. -/
def isHexClass (c : Char) : Bool :=
  c.isDigit || (decimalDigit c).isSome || ('a' ≤ c && c ≤ 'f')

/-- `([\S]+) at ([\S]+):[0-9]+$`, on a line without line ends -/
def framePattern : Regex :=
  .seq (.group (.rep true 1 notSpace)) (.seq (Regex.lit " at ".toList)
    (.seq (.group (.rep true 1 notSpace)) (.seq (.cls (· == ':'))
      (.seq (.rep true 1 isDecimal) .lineEnd))))

/-- `0x([\da-f]+): ([\S]+) at ([\S]+):[0-9]+$` -/
def addressPattern : Regex :=
  .seq (Regex.lit "0x".toList) (.seq (.group (.rep true 1 isHexClass))
    (.seq (Regex.lit ": ".toList) framePattern))

/-- ` \(inlined by\) ([\S]+) at ([\S]+):[0-9]+$` -/
def inlinedPattern : Regex := .seq (Regex.lit " (inlined by) ".toList) framePattern

structure Addr2line where
  addr : ℤ
  addr2lifu : Dict ℤ (Text × Text)
  line2addr : Dict Text (List ℤ)
  func2addr : Dict Text (Finset ℤ)

namespace Addr2line

def initial : Addr2line := ⟨0, .empty, .empty, .empty⟩

def addFrame (s : Addr2line) (addr : ℤ) (func lino : Text) : Addr2line where
  addr := addr
  addr2lifu := s.addr2lifu.set addr (lino, func)
  line2addr := s.line2addr.set lino (s.line2addr.getD lino [] ++ [addr])
  func2addr := s.func2addr.set func (insert addr (s.func2addr.getD func ∅))

/-- An inlined frame belongs to the previous address. -/
def readLine (s : Addr2line) (line : Text) : Except PyError Addr2line :=
  match (addressPattern.search line).map Match.groups with
  | some [address, func, lino] => do
      let addr ← int16 address
      return s.addFrame addr func lino
  | _ =>
      match (inlinedPattern.search line).map Match.groups with
      | some [func, lino] => .ok (s.addFrame s.addr func lino)
      | _ => .ok s

end Addr2line

/-! ## Files -/

inductive Halt where
  | exit (message : Text)
  | raised (e : PyError)
  | isADirectory
  deriving DecidableEq, Repr

/-- `os.path.exists` -/
def pathExists (fs : FileSystem) (name : Text) : Bool := fs.isFile name || fs.isDir name

/-- `open(name, 'r')` and `f.read()` -/
def readText (fs : FileSystem) (name : Text) : Except Halt Text :=
  match fs.contents name with
  | some (.decoded s) => .ok s
  | some .undecodable => .error (.raised .unicodeDecodeError)
  | none =>
      if fs.isDir name then .error .isADirectory else .error (.raised .fileNotFoundError)

def addr2lineFile (traceDir : Text) : Text := traceDir ++ "/addr2line.lst".toList

def parseAddr2line (fs : FileSystem) (traceDir : Text) : Except Halt Addr2line :=
  let addr2line := addr2lineFile traceDir
  if pathExists fs addr2line then do
    let s ← readText fs addr2line
    ((splitlines s).foldlM Addr2line.readLine .initial).mapError .raised
  else .error (.exit ("Could not find ".toList ++ addr2line ++ ".".toList))

/-! ## Lines of the report -/

/-- `(\S+:[0-9]+)\s(\S+)\(\)` -/
def linePattern : Regex :=
  .seq (.group (.seq (.rep true 1 notSpace)
    (.seq (.cls (· == ':')) (.rep true 1 isDecimal))))
  (.seq (.cls isSpace) (.seq (.group (.rep true 1 notSpace)) (Regex.lit "()".toList)))

/-- `m.group(1)` -/
def lineLocation (line : Text) : Option Text :=
  (linePattern.search line).bind fun m => m.groups.head?

/-- A later line takes the place of an earlier one with its location. -/
def parseSmatchLine (lino2msg : Dict Text Text) (line : Text) : Dict Text Text :=
  match lineLocation line with
  | none => lino2msg
  | some lino => lino2msg.set lino line

def parseSmatchText (s : Text) : Dict Text Text :=
  (splitlines s).foldl parseSmatchLine .empty

/-! ## The program -/

def tracesDir (workDir : Text) : Text := workDir ++ "/traces".toList

def targetSmatchFile (workDir : Text) : Text := workDir ++ "/target/smatch_warns.txt".toList

/-- The report of the target, or else the default one. -/
def chooseSmatchFile (fs : FileSystem) (defaultSmatchFile workDir : Text) : Except Halt Text :=
  if pathExists fs (targetSmatchFile workDir) then .ok (targetSmatchFile workDir)
  else if pathExists fs defaultSmatchFile then .ok defaultSmatchFile
  else .error (.exit ("Error: Could not find smatch report at ".toList ++
    targetSmatchFile workDir ++ " or ".toList ++ defaultSmatchFile ++ ".".toList))

def matchedLines (traces : Addr2line) (smatchMap : Dict Text Text) : List Text :=
  (smatchMap.keys.filter fun lino => traces.line2addr.getD lino [] ≠ []).map
    (smatchMap.getD · [])

def main (fs : FileSystem) (defaultSmatchFile workDir : Text) : Except Halt (List Text) :=
  if fs.isDir (tracesDir workDir) then do
    let smatchFile ← chooseSmatchFile fs defaultSmatchFile workDir
    let traces ← parseAddr2line fs (tracesDir workDir)
    let s ← readText fs smatchFile
    return matchedLines traces (parseSmatchText s)
  else .error (.exit ("Error: Could not find ".toList ++ tracesDir workDir ++ ".".toList))

/-! ## Printed locations -/

def Named (report l : Text) : Prop := ∃ line ∈ splitlines report, lineLocation line = some l

theorem mem_keys_foldl_parseSmatchLine (lines : List Text) (lino2msg : Dict Text Text)
    (l : Text) : l ∈ (lines.foldl parseSmatchLine lino2msg).keys ↔
      l ∈ lino2msg.keys ∨ ∃ line ∈ lines, lineLocation line = some l := by
  induction lines generalizing lino2msg with
  | nil => simp
  | cons line lines ih =>
      rw [List.foldl_cons, ih, List.exists_mem_cons_iff, ← or_assoc]
      apply or_congr_left
      unfold parseSmatchLine
      cases hline : lineLocation line with
      | none => simp
      | some lino =>
          rw [Dict.mem_keys_set, Option.some_inj, or_comm, eq_comm]

theorem lineLocation_foldl_parseSmatchLine (lines : List Text) (lino2msg : Dict Text Text)
    (h : ∀ l ∈ lino2msg.keys, lineLocation (lino2msg.getD l []) = some l) :
    ∀ l ∈ (lines.foldl parseSmatchLine lino2msg).keys,
      lineLocation ((lines.foldl parseSmatchLine lino2msg).getD l []) = some l := by
  induction lines generalizing lino2msg with
  | nil => exact h
  | cons line lines ih =>
      apply ih
      intro l hl
      unfold parseSmatchLine at hl ⊢
      cases hline : lineLocation line with
      | none =>
          rw [hline] at hl
          exact h l hl
      | some lino =>
          simp only [hline, Dict.mem_keys_set, Dict.getD_set] at hl ⊢
          by_cases hlino : l = lino
          · rw [if_pos hlino, hlino]
            exact hline
          · rw [if_neg hlino]
            exact h l (hl.resolve_left hlino)

/-- A location is printed if the report names it and a frame has it as its key. -/
theorem printed_iff {traces : Addr2line} {report l : Text} :
    (∃ line ∈ matchedLines traces (parseSmatchText report), lineLocation line = some l) ↔
      Named report l ∧ traces.line2addr.getD l [] ≠ [] := by
  have hkeys : ∀ l, l ∈ (parseSmatchText report).keys ↔ Named report l := by
    intro l
    rw [parseSmatchText, mem_keys_foldl_parseSmatchLine]
    simp [Named]
  have hlocation := lineLocation_foldl_parseSmatchLine (splitlines report)
    .empty (by simp)
  simp only [matchedLines, List.mem_map, List.mem_filter, decide_eq_true_eq,
    exists_exists_and_eq_and]
  constructor
  · rintro ⟨lino, ⟨hlino, haddrs⟩, hl⟩
    obtain rfl : lino = l := Option.some.inj ((hlocation lino hlino).symm.trans hl)
    exact ⟨(hkeys lino).mp hlino, haddrs⟩
  · rintro ⟨hnamed, haddrs⟩
    have hl := (hkeys l).mpr hnamed
    exact ⟨l, ⟨hl, haddrs⟩, hlocation l hl⟩

end TdvfFuzz.SmatchMatch
