import TdvfFuzz.Foundation.Dict
import TdvfFuzz.Foundation.Shell

/-!
# `summarize.sh`

The script derives an issue from every crash log, collects the logs by a short
tag of their issue and prints the issues by class.
-/

namespace TdvfFuzz.CrashSummary

open TdvfFuzz.Foundation

inductive BugClass where
  | kasan
  | crash
  | warns
  | hangs
  deriving DecidableEq, Repr

namespace BugClass

def name : BugClass → Text
  | kasan => "KASAN".toList
  | crash => "CRASH".toList
  | warns => "WARNS".toList
  | hangs => "HANGS".toList

/-- `CLASSES_ORDER` -/
def classesOrder : List BugClass := [kasan, crash, warns, hangs]

theorem mem_classesOrder (cls : BugClass) : cls ∈ classesOrder := by
  cases cls <;> decide

end BugClass

/--
The external tools, by what they print.  `grepLog`, `tac` and `timedOut` read
the file or files that `$log` stands for, `timedOut` is `grep -q $log $LOGS_TIMEO`,
and `cksum` gives the two numbers of its line.
-/
structure Tools where
  grepLog : List String → Text → Text
  grep : List String → Text → Text
  sed : List String → Text → Text
  tac : Text → Text
  cksum : Text → ℕ × ℕ
  timedOut : Text → Bool

structure Issues where
  tag2msg : Dict Text Text
  tag2log : Dict Text Text
  class2tag : Dict BugClass Text
  log2note : Dict Text Text

def Issues.empty : Issues := ⟨.empty, .empty, .empty, .empty⟩

def decimal (n : ℕ) : Text := Nat.toDigits 10 n

/-! ## Registering -/

def tagLen : ℕ := 5

def stripAddress : String := "s/+0x[0-9,a-f,x,/]*//g"

/-- `register_issue`, from the raw message to the one that is stored -/
def normalise (tools : Tools) (msg : Text) : Text :=
  let msg := commandSubst (tools.grep ["-v", "^ \\? \\|^Call Trace:\\|^CPU:\\|^Code:\\|" ++
    "^CR2:\\|^CS:\\|^FS:\\|^R13:\\|^R10:\\|^RBP:\\|^RDX:\\|^RSP:"] (echo msg))
  let msg := commandSubst (tools.sed ["-e", "s/general protection fault/#GP/",
    "-e", stripAddress, "-e", "s/RIP: 0010:/RIP: /"] (echo msg))
  let msg := commandSubst (tools.sed ["-e", "s/stuck for [0-9]*s.*/stuck for [s] secs/",
    "-e", "s/for address 0x[0-9,a-f]*:/for address [n]:/"] (echo msg))
  let msg := commandSubst (tools.sed
    ["-e", "s/in range \\[0x[0-9,a-f]*-0x[0-9,a-f]*\\]/in range [x-y]/"] (echo msg))
  let msg := commandSubst (tools.sed
    ["-e", "s/of size [0-9]* at addr [0-9,a-f]*/of size N at addr M/"] (echo msg))
  commandSubst ((echo msg).map fun c => if c = '\n' then ' ' else c)

def cksumLine (sum : ℕ × ℕ) : Text := decimal sum.1 ++ ' ' :: decimal sum.2 ++ " -".toList

/-- `$(echo "$msg,$class"|cksum -|cut -b -$TAGLEN)` -/
def issueTag (tools : Tools) (msg : Text) (cls : BugClass) : Text :=
  commandSubst
    ((cksumLine (tools.cksum (echo (msg ++ ',' :: cls.name)))).take tagLen ++ ['\n'])

def Issues.store (s : Issues) (tag msg log : Text) (cls : BugClass) : Issues :=
  if s.tag2msg.getD tag [] = [] then
    { s with
      tag2msg := s.tag2msg.set tag msg
      tag2log := s.tag2log.set tag log
      class2tag := s.class2tag.set cls
        (if s.class2tag.getD cls [] = [] then tag else s.class2tag.getD cls [] ++ ' ' :: tag) }
  else { s with tag2log := s.tag2log.set tag (s.tag2log.getD tag [] ++ ',' :: log) }

def errorNote (tools : Tools) (log : Text) : Text :=
  let note := commandSubst
    (tools.grep ["-i", "-m", "1", "error\\|fatal\\|warn\\|fail"] (tools.tac log))
  if note = [] then []
  else commandSubst (tools.sed [stripAddress] (echo ("<i>last error:</i> ".toList ++ note)))

/-- `none` is the return value 1. -/
def registerIssue (tools : Tools) (s : Issues) (msg log : Text) (cls : BugClass) :
    Option Issues :=
  if msg = [] then none
  else
    let msg := normalise tools msg
    let s := s.store (issueTag tools msg cls) msg log cls
    some { s with log2note := s.log2note.set log (errorNote tools log) }

/-! ## The extraction rules -/

section

variable (tools : Tools)

def dropModules : List String := ["-v", "^CPU:\\|^Modules linked in:"]

/-- The results reported by the handler of `bug()`. -/
def kasanBug (log : Text) : Text :=
  commandSubst (tools.sed ["s/^BUG: //"] (tools.grepLog ["-A", "1", "^BUG: KASAN:"] log))

/-- The results reported by the general crash handler. -/
def kasanInline (log : Text) : Text :=
  commandSubst (tools.grep ["^RIP:\\|^KASAN:"] (tools.grepLog ["-A", "3", "^KASAN:"] log))

def panicHandler (log : Text) : Text :=
  commandSubst (tools.sed ["s/SMP KASAN NOPTI//"]
    (tools.grep ["^RIP:\\|^KASAN:\\|KASAN NOPTI$"]
      (tools.grep ["-m", "2", "-A", "3", "KASAN NOPTI$"] (tools.grepLog dropModules log))))

def uncheckedMsr (log : Text) : Text :=
  commandSubst (tools.grepLog ["-m", "1", "^unchecked MSR access error:"] log)

def dropRegisters (msg : Text) : Text :=
  commandSubst (tools.grep ["-v", "^ ? \\|^Call Trace:\\|^Code:\\|" ++
    "^CR2:\\|^CS:\\|^FS:\\|^R13:\\|^R10:\\|^RBP:\\|^RDX:\\|^RSP:"] (echo msg))

def warningOrBug (log : Text) : Text :=
  dropRegisters tools (commandSubst (tools.sed ["s/SMP KASAN NOPTI//"]
    (tools.grep ["-m", "2", "^WARNING:\\|^BUG:"] (tools.grepLog dropModules log))))

/-- The shell takes the backslash out of `s/\(.*//`. -/
def beforeRip (log : Text) : Text :=
  dropRegisters tools (commandSubst (tools.sed ["s/(.*//"]
    (tools.grep ["-m", "2", "-B", "1", "^RIP:"] (tools.grepLog dropModules log))))

def scanLog (s : Issues) (log : Text) : Issues :=
  (registerIssue tools s (kasanBug tools log) log .kasan <|>
    registerIssue tools s (kasanInline tools log) log .kasan <|>
    registerIssue tools s (panicHandler tools log) log .crash <|>
    registerIssue tools s (uncheckedMsr tools log) log .warns <|>
    registerIssue tools s (warningOrBug tools log) log .warns <|>
    registerIssue tools s (beforeRip tools log) log .warns <|>
    (if tools.timedOut log then
      registerIssue tools s "Unclassified HANGS".toList log .hangs
    else registerIssue tools s "Unclassified CRASH".toList log .warns)).getD s

/-- `logs` are the words of the `for` loop. -/
def scanLogs (logs : List Text) : Issues := logs.foldl (scanLog tools) .empty

end

/-! ## Rendering -/

def classLine (s : Issues) (cls : BugClass) : Text :=
  if s.class2tag.getD cls [] = [] then []
  else echoE ("\\t".toList ++ cls.name ++ ": ".toList ++ s.class2tag.getD cls [])

/-- `$(echo "$logs"|sed 's/,/,\n\t/g')` -/
def logLines (logs : Text) : Text :=
  commandSubst ((echo logs).flatMap fun c => if c = ',' then ",\n\t".toList else [c])

def issueText (tag msg logs : Text) : Text :=
  echoE ('[' :: tag ++ "] ".toList ++ msg ++ "\\n\\t".toList ++ logLines logs ++ "\\n".toList)

def reportHead (targetInfo : Text) (scanLogsNum : ℕ) (s : Issues) : Text :=
  echo ("Target: ".toList ++ targetInfo) ++
    echo ("Identified ".toList ++ decimal s.tag2msg.keys.length ++ " issues out of ".toList ++
      decimal scanLogsNum ++ " logs:".toList) ++
    BugClass.classesOrder.flatMap (classLine s) ++ ['\n']

def renderToText (targetInfo : Text) (scanLogsNum : ℕ) (s : Issues) : Text :=
  reportHead targetInfo scanLogsNum s ++
    BugClass.classesOrder.flatMap fun cls =>
      (shellWords (s.class2tag.getD cls [])).flatMap fun tag =>
        issueText tag (s.tag2msg.getD tag []) (s.tag2log.getD tag [])

end TdvfFuzz.CrashSummary
