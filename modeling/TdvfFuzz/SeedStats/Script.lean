import TdvfFuzz.Foundation.Dict
import TdvfFuzz.Foundation.Lines
import TdvfFuzz.Foundation.Python
import TdvfFuzz.Foundation.Records
import TdvfFuzz.Foundation.Shell

/-!
# `show_seed_stats.py` and `clean_seeds.sh`

The first script reads off the log of a fuzzing session which seeds were of
use, and which payload each of them was copied from.  The second one removes
the payloads of the others.
-/

namespace TdvfFuzz.SeedStats

open TdvfFuzz.Foundation

inductive Error where
  | indexError
  | keyError
  deriving DecidableEq, Repr

/-! ## Patterns -/

/-- `.` -/
def notNewline (c : Char) : Bool := c ≠ '\n'

/-- `[0-9a-zA-Z_-]` -/
def isNameChar (c : Char) : Bool :=
  c.isDigit || ('a' ≤ c && c ≤ 'z') || ('A' ≤ c && c ≤ 'Z') || c == '_' || c == '-'

/-- `payload_[0-9a-zA-Z_-]+` -/
def plPattern : Regex := .seq (Regex.lit "payload_".toList) (.rep true 1 isNameChar)

/-- `seed_[0-9]+` -/
def seedPattern : Regex := .seq (Regex.lit "seed_".toList) (.rep true 1 Char.isDigit)

/-- `.+copying .* -> seed_[0-9]+` -/
def copyPattern : Regex :=
  .seq (.rep true 1 notNewline) (.seq (Regex.lit "copying ".toList)
    (.seq (.rep true 0 notNewline) (.seq (Regex.lit " -> ".toList) seedPattern)))

/-- `.+s` -/
def behind (s : String) : Regex := .seq (.rep true 1 notNewline) (Regex.lit s.toList)

/-- `.+Worker-[0-9]+ s` -/
def workerSays (s : Regex) : Regex :=
  .seq (behind "Worker-") (.seq (.rep true 1 Char.isDigit) (.seq (Regex.lit [' ']) s))

/-- `re.match` -/
def Matches (r : Regex) (line : Text) : Prop := (r.first none line).isSome

instance (r : Regex) (line : Text) : Decidable (Matches r line) :=
  inferInstanceAs (Decidable ((r.first none line).isSome = true))

/-- The two branches of `.+(Received new input .*:|Received Ctrl-C, killing workers...)`. -/
def isUseful (line : Text) : Bool :=
  Matches (.seq (behind "Received new input ")
    (.seq (.rep true 0 notNewline) (.cls (· == ':')))) line ||
  Matches (.seq (behind "Received Ctrl-C, killing workers") (.seq (.cls notNewline)
    (.seq (.cls notNewline) (.cls notNewline)))) line

def isUseless (line : Text) : Bool :=
  Matches (workerSays (Regex.lit
    "Imported payload produced no new coverage, skipping..".toList)) line

/-- The two branches of `(Input validation failed! Target funky\?\.\.|Guest ABORT:.+)`. -/
def isInvalid (line : Text) : Bool :=
  Matches (workerSays (Regex.lit "Input validation failed! Target funky?..".toList)) line ||
  Matches (workerSays (.seq (Regex.lit "Guest ABORT:".toList) (.rep true 1 notNewline))) line

/-- The attributes in the order in which they are printed. -/
def attributes : List (Text × (Text → Bool)) :=
  [("useful".toList, isUseful), ("useless".toList, isUseless), ("invalid".toList, isInvalid)]

/-! ## Reading the log -/

/-- The newlines of a file that is opened as text. -/
def universalNewlines : Text → Text
  | [] => []
  | '\r' :: '\n' :: s => '\n' :: universalNewlines s
  | '\r' :: s => '\n' :: universalNewlines s
  | c :: s => c :: universalNewlines s

def logLines (log : Text) : List Text := readlines (universalNewlines log)

/-- `RE.findall(line)[0]`, or `none` where there is no match. -/
def firstName (r : Regex) (line : Text) : Option Text :=
  (r.findall line).head?.map Match.consumed

/-- `RE.findall(line)[0]` -/
def findFirst (r : Regex) (line : Text) : Except Error Text :=
  match firstName r line with
  | none => .error .indexError
  | some name => .ok name

def readEntry (line : Text) : Except Error (Text × Text) := do
  let seed ← findFirst seedPattern line
  let payload ← findFirst plPattern line
  return (seed, payload)

def payloadMap (lines : List Text) : Except Error (Dict Text Text) := do
  let entries ← (lines.filter (Matches copyPattern ·)).mapM readEntry
  return .collect entries

/-- `lines[i-1]`, where no line has the number -1. -/
def lineBefore (lines : List Text) (i : ℕ) : Except Error Text :=
  match i with
  | 0 => .error .keyError
  | i + 1 =>
      match lines[i]? with
      | none => .error .keyError
      | some line => .ok line

def getSeedsFromAttribute (lines : List Text) (attr : Text → Bool) : Except Error (List Text) := do
  let attrLines := lines.zipIdx.filter fun line => attr line.1
  let seedLines ← attrLines.mapM fun line => lineBefore lines line.2
  return seedLines.filterMap (firstName seedPattern)

structure SeedLine where
  seed : Text
  payload : Text
  attr : Text
  deriving DecidableEq, Repr

/-- `{seed} {pl_map[seed]} {attr}` -/
def seedLine (plMap : Dict Text Text) (seed attr : Text) : Except Error SeedLine :=
  match plMap.get? seed with
  | none => .error .keyError
  | some payload => .ok ⟨seed, payload, attr⟩

def printPayloadStats (plMap : Dict Text Text) (attrMap : List (Text × List Text)) :
    Except Error (List SeedLine) :=
  (attrMap.flatMap fun attr => attr.2.map fun seed => (seed, attr.1)).mapM fun seed =>
    seedLine plMap seed.1 seed.2

/-- The script with the option `-p`. -/
def showSeedStats (log : Text) : Except Error (List SeedLine) := do
  let lines := logLines log
  let plMap ← payloadMap lines
  let attrMap ← attributes.mapM fun attr => do
    let seeds ← getSeedsFromAttribute lines attr.2
    return (attr.1, seeds)
  printPayloadStats plMap attrMap

/-! ## Removing payloads -/

def SeedLine.text (line : SeedLine) : Text :=
  line.seed ++ ' ' :: line.payload ++ ' ' :: line.attr

/-- `grep -E "invalid|useless"` -/
def isBad (line : Text) : Prop := "invalid".toList <:+: line ∨ "useless".toList <:+: line

instance : DecidablePred isBad := fun line =>
  inferInstanceAs (Decidable ("invalid".toList <:+: line ∨ "useless".toList <:+: line))

def badPayloads (stats : List SeedLine) : List Text :=
  (stats.map SeedLine.text).filter (isBad ·)

/-- The programs behind the list of payloads: arguments, input and output. -/
structure Tools where
  awk : List Text → Text → Text
  xargs : Text → List Text

def awkProgram : Text := "\x7bprint seed_dir\"/\"$2\x7d".toList

/-- The arguments of `awk`; the directory stands without quotes. -/
def awkArgs (seedsDir : Text) : List Text :=
  "-v".toList :: shellWords ("seed_dir=".toList ++ seedsDir) ++ [awkProgram]

/-- The paths that `rm` removes; with a dash in front they are options it does not know. -/
def operands (args : List Text) : List Text :=
  if args.all fun arg => arg.head? ≠ some '-' then args else []

/-- `echo "$BAD_PAYLOADS" | awk -v seed_dir=$SEEDS_DIR .. | xargs rm`, if there are any. -/
def removed (tools : Tools) (seedsDir : Text) (stats : List SeedLine) : List Text :=
  if badPayloads stats = [] then []
  else
    let printed := tools.awk (awkArgs seedsDir) (terminated '\n' (badPayloads stats))
    operands (tools.xargs printed)

end TdvfFuzz.SeedStats
