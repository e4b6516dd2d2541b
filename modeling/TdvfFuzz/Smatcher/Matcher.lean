import Mathlib.Data.Finset.Union
import Mathlib.Data.Finset.Prod
import TdvfFuzz.Foundation.Python

/-!
# Matching line coverage against a report

`smatcher` reads line coverage files and static analysis reports, item by item,
and marks the report entries whose location is covered.
-/

namespace TdvfFuzz.Smatcher

open TdvfFuzz.Foundation

/-! ## Reading the two formats -/

/--
The class `\w`.  Beyond ASCII the letters and digits are those of the
character database, which is left open.
-/
structure WordClass where
  isWord : Char → Bool
  ascii : ∀ c : Char, c.toNat < 128 → isWord c = (c.isAlphanum || c == '_')

/-- `[\w./]` -/
def WordClass.isPathChar (word : WordClass) (c : Char) : Bool :=
  word.isWord c || c == '.' || c == '/'

/-- `[0-9]` -/
def isDecimal (c : Char) : Bool := c.isDigit

/-- `\S` -/
def notSpace (c : Char) : Bool := !isSpace c

/-- `[\w./]+:[0-9]+` -/
def coveragePattern (word : WordClass) : Regex :=
  .seq (.rep true 1 word.isPathChar)
    (.seq (.cls (· == ':')) (.rep true 1 isDecimal))

/-- `(\S+:[0-9]+) (\S+)\(\)` -/
def locationPattern : Regex :=
  .seq (.group (.seq (.rep true 1 notSpace)
    (.seq (.cls (· == ':')) (.rep true 1 isDecimal))))
  (.seq (.cls (· == ' ')) (.seq (.group (.rep true 1 notSpace)) (Regex.lit "()".toList)))

/-- `(\S+)\t(\S+:[0-9]+) (\S+)\(\)` -/
def classifiedPattern : Regex :=
  .seq (.group (.rep true 1 notSpace)) (.seq (.cls (· == '\t')) locationPattern)

/-- `^(\S+:[0-9]+) (\S+)\(\)` with `re.M` -/
def unclassifiedPattern : Regex := .seq .lineStart locationPattern

/-- One iteration of the loop of `os.path.normpath`, on the reversed components. -/
def pushPiece (absolute : Bool) (stack : List Text) (piece : Text) : List Text :=
  if piece = [] ∨ piece = ['.'] then stack
  else if piece ≠ ['.', '.'] then piece :: stack
  else
    match stack with
    | [] => if absolute then [] else [piece]
    | top :: below => if top = ['.', '.'] then piece :: stack else below

def initialSlashes (path : Text) : Text :=
  match path with
  | '/' :: '/' :: '/' :: _ => ['/']
  | '/' :: '/' :: _ => ['/', '/']
  | '/' :: _ => ['/']
  | _ => []

/-- `os.path.normpath` -/
def normpath (path : Text) : Text :=
  let slashes := initialSlashes path
  let stack := (path.splitOn '/').foldl (pushPiece (slashes ≠ [])) []
  match slashes ++ ['/'].intercalate stack.reverse with
  | [] => ['.']
  | normal => normal

/-- `os.path.normpath(l.strip('./'))` -/
def locationKey (l : Text) : Text :=
  normpath (stripBy (fun c => c == '.' || c == '/') l)

structure Entry where
  classification : Text
  location : Text
  function : Text
  deriving DecidableEq, Repr

def parseSmatch (s : Text) : Finset Entry :=
  ((classifiedPattern.findall s).filterMap fun m =>
    match m.groups with
    | [c, l, f] => some ⟨c, locationKey l, f⟩
    | _ => none).toFinset ∪
  ((unclassifiedPattern.findall s).filterMap fun m =>
    match m.groups with
    | [l, f] =>
        if f = "(null)".toList then none
        else some ⟨"unclassified".toList, locationKey l, f⟩
    | _ => none).toFinset

def parseLineCoverage (word : WordClass) (s : Text) : Finset Text :=
  (((coveragePattern word).findall s).map fun m => locationKey m.consumed).toFinset

/-! ## Choosing the files of an input item -/

inductive Contents where
  | decoded (s : Text)
  | undecodable
  deriving DecidableEq, Repr

structure FileSystem where
  contents : Text → Option Contents
  isDir : Text → Bool

def FileSystem.isFile (fs : FileSystem) (name : Text) : Bool :=
  (fs.contents name).isSome

/-- Why a run ends early. -/
inductive Stop where
  | exit (message : Text)
  | raised (e : PyError)
  deriving DecidableEq, Repr

def FileSystem.read (fs : FileSystem) (name : Text) : Except Stop Text :=
  match fs.contents name with
  | none => .error (.raised .fileNotFoundError)
  | some .undecodable => .error (.raised .unicodeDecodeError)
  | some (.decoded s) => .ok s

def parseSmatchFile (fs : FileSystem) (fname : Text) : Except Stop (Finset Entry) := do
  let s ← fs.read fname
  .ok (parseSmatch s)

/-- A file that cannot be decoded counts as empty. -/
def parseLineCoverageFile (word : WordClass) (fs : FileSystem) (fname : Text) :
    Except Stop (Finset Text) :=
  match fs.read fname with
  | .ok s => .ok (parseLineCoverage word s)
  | .error (.raised .unicodeDecodeError) => .ok ∅
  | .error e => .error e

/-- `os.path.join` -/
def joinPath (a b : Text) : Text :=
  if b.head? = some '/' then b
  else if a = [] ∨ a.getLast? = some '/' then a ++ b
  else a ++ '/' :: b

structure Args where
  inputItems : List Text
  smatch : Option Text
  combineCovFiles : Bool
  ignoreErrors : Bool
  load : Bool
  save : Bool
  dbFile : Text
  deriving DecidableEq, Repr

def linecovFiles : List Text :=
  ["traces/linecov.lst".toList, "traces/smatch_match_rust.lst".toList,
    "traces/smatch_match.lst".toList, "traces/addr2line.lst".toList]

def shownFiles (files : List Text) : Text :=
  '[' :: ", ".toList.intercalate (files.map fun f => '\'' :: f ++ ['\'']) ++ [']']

/-- `if args.smatch`: neither missing nor empty. -/
def givenSmatch (args : Args) : Option Text := args.smatch.filter (· ≠ [])

/-- Without `--ignore-errors` a missing report ends the run. -/
def tryFindSmatchFile (args : Args) (fs : FileSystem) (inputItem : Text) :
    Except Stop (Option Text) :=
  match givenSmatch args with
  | some smatch =>
      if fs.isFile smatch then .ok (some smatch)
      else .error (.exit ("Could not find provided smatch file '".toList ++
        smatch ++ "'.".toList))
  | none =>
      if fs.isFile inputItem ∧ args.smatch = none then
        .error (.exit ("Could not auto-detect smatch file. ".toList ++
          "Please set '--smatch' parameter".toList))
      else
        let annotated := joinPath inputItem "target/smatch_warns_annotated.txt".toList
        let raw := joinPath inputItem "target/smatch_warns.txt".toList
        if fs.isFile annotated then .ok (some annotated)
        else if fs.isFile raw then .ok (some raw)
        else if args.ignoreErrors then .ok none
        else .error (.exit ("Could not find smatch file '".toList ++ raw ++
          "'. Giving up.".toList))

/-- `for f in LINECOV_FILES`; the first file that exists unless all are combined. -/
def combineCoverage (word : WordClass) (args : Args) (fs : FileSystem)
    (workDir : Text) (existingFiles : Nat) (cov : Finset Text) :
    List Text → Except Stop (Finset Text)
  | [] =>
      if existingFiles = 0 ∧ args.ignoreErrors = false then
        .error (.exit ("Could not find and of the coverage files '".toList ++
          shownFiles linecovFiles ++ "'.\n".toList ++
          "Please make sure one exists, or provide an alternative file with --cov.".toList))
      else .ok cov
  | f :: rest =>
      let lineCoveragePath := joinPath workDir f
      if fs.isFile lineCoveragePath then
        if args.combineCovFiles then do
          let lines ← parseLineCoverageFile word fs lineCoveragePath
          combineCoverage word args fs workDir (existingFiles + 1) (cov ∪ lines) rest
        else parseLineCoverageFile word fs lineCoveragePath
      else combineCoverage word args fs workDir existingFiles cov rest

def tryGetCoverage (word : WordClass) (args : Args) (fs : FileSystem)
    (inputItem : Text) : Except Stop (Finset Text) :=
  if fs.isFile inputItem then parseLineCoverageFile word fs inputItem
  else if fs.isDir inputItem = false ∧ args.ignoreErrors = false then
    .error (.exit ("Provided path '".toList ++ inputItem ++
      "' is not a valid kAFL workdir".toList))
  else combineCoverage word args fs inputItem 0 ∅ linecovFiles

/-! ## Matching -/

/-- `sm_map`: the entries of a report by location. -/
def smMap (sm : Finset Entry) (line : Text) : Finset Entry :=
  sm.filter (·.location = line)

structure Report where
  smatchSet : Finset Entry
  covered : Finset Entry
  deriving DecidableEq

def visitItem (word : WordClass) (args : Args) (fs : FileSystem) (report : Report)
    (inputItem : Text) : Except Stop Report := do
  let cov ← tryGetCoverage word args fs inputItem
  match ← tryFindSmatchFile args fs inputItem with
  | none => .ok report
  | some smatchFile => do
      let sm ← parseSmatchFile fs smatchFile
      .ok ⟨report.smatchSet ∪ sm, report.covered ∪ cov.biUnion (smMap sm)⟩

def visitItems (word : WordClass) (args : Args) (fs : FileSystem) :
    Report → List Text → Except Stop Report
  | report, [] => .ok report
  | report, inputItem :: rest => do
      let report ← visitItem word args fs report inputItem
      visitItems word args fs report rest

/-- Pickled sets of covered entries by file name. -/
abbrev CoverageDb := Text → Option (Finset Entry)

def loadDb (args : Args) (db : CoverageDb) : Except Stop (Finset Entry) :=
  if args.load then
    match db args.dbFile with
    | some covered => .ok covered
    | none => .error (.raised .fileNotFoundError)
  else .ok ∅

/-- The two sets that the summary is printed from, and the database afterwards. -/
def start (word : WordClass) (args : Args) (fs : FileSystem) (db : CoverageDb) :
    Except Stop (Report × CoverageDb) := do
  let loaded ← loadDb args db
  let report ← visitItems word args fs ⟨∅, loaded⟩ args.inputItems
  if args.save then
    let covered := report.covered ∪ (db args.dbFile).getD ∅
    .ok (⟨report.smatchSet, covered⟩, Function.update db args.dbFile (some covered))
  else .ok (report, db)

end TdvfFuzz.Smatcher
