import Mathlib.Data.Finset.Card
import Mathlib.Data.Rat.Defs
import TdvfFuzz.SmatchMatch.LineMatcher
import TdvfFuzz.SmatchMatch.TraceParser

/-!
# `gen_reports` of `smatch_match.py`

The results of all traces are merged one by one.  Each trace that is there adds
a row to the plot, with the number of blocks and edges so far.
-/

namespace TdvfFuzz.SmatchMatch

open TdvfFuzz.Foundation

/-! ## Merging the results -/

structure PlotRow where
  timestamp : ℚ
  numBbs : ℕ
  numEdges : ℕ

structure Reports where
  uniqueBbs : Finset ℤ
  callers : Dict ℤ (Finset ℤ)
  uniqueEdges : Dict Text ℤ
  globalBackEdges : Dict Text (Finset Text)
  numBbs : ℕ
  numEdges : ℕ
  numTraces : ℕ
  plot : List PlotRow

namespace Reports

def initial : Reports := ⟨∅, .empty, .empty, .empty, 0, 0, 0, []⟩

/-- The body of the loop for a trace that is there. -/
def addFindings (reports : Reports) (timestamp : ℚ) (findings : TraceResult) : Reports :=
  let newBbs := (findings.bbs \ reports.uniqueBbs).card
  let newEdges := (findings.edges.keys.toFinset \ reports.uniqueEdges.keys.toFinset).card
  { uniqueBbs := reports.uniqueBbs ∪ findings.bbs
    callers := reports.callers.merge (· ∪ ·) ∅ findings.callers
    uniqueEdges := reports.uniqueEdges.merge (· + ·) 0 findings.edges
    globalBackEdges := reports.globalBackEdges.merge (· ∪ ·) ∅ findings.backEdges
    numBbs := reports.numBbs + newBbs
    numEdges := reports.numEdges + newEdges
    numTraces := reports.numTraces + 1
    plot := reports.plot ++
      [⟨timestamp, reports.numBbs + newBbs, reports.numEdges + newEdges⟩] }

/-- `if not findings: continue` -/
def addTrace (reports : Reports) (trace : ℚ × Option TraceResult) : Reports :=
  match trace.2 with
  | none => reports
  | some findings => reports.addFindings trace.1 findings

end Reports

def genReports (traceResults : List (ℚ × Option TraceResult)) : Reports :=
  traceResults.foldl Reports.addTrace .initial

/-- Timestamps and traces, where a trace is its text or is missing. -/
def parseTraces (traces : List (ℚ × Option Text)) :
    Except PyError (List (ℚ × Option TraceResult)) :=
  traces.mapM fun trace => do
    let findings ← parseSpliceTraceFile trace.2
    return (trace.1, findings)

/-! ## The written files -/

/-- `"%d" % timestamp` -/
def formatTimestamp (timestamp : ℚ) : Text := (toString (timestamp.num.tdiv timestamp.den)).toList

/-- `"%x" % num` -/
def formatX (num : ℤ) : Text :=
  if num < 0 then '-' :: Nat.toDigits 16 num.natAbs else Nat.toDigits 16 num.natAbs

def PlotRow.text (row : PlotRow) : Text :=
  formatTimestamp row.timestamp ++ ';' :: Nat.toDigits 10 row.numBbs ++
    ';' :: Nat.toDigits 10 row.numEdges ++ ['\n']

/-- `coverage.csv` -/
def Reports.coverageCsv (reports : Reports) : Text := reports.plot.flatMap PlotRow.text

/-- `edges_uniq.lst` -/
def Reports.edgesUniq (reports : Reports) : Text :=
  reports.uniqueEdges.entries.flatMap fun entry => entry.1 ++ ',' :: formatX entry.2 ++ ['\n']

/-! ## Functions by address -/

/-- `none` where the address is not in the listing, a `KeyError`. -/
def Addr2line.addr2func (s : Addr2line) (addr : ℤ) : Option Text :=
  if addr < 0xffffffff00000000 then some "trace_exit".toList
  else (s.addr2lifu.get? addr).map Prod.snd

end TdvfFuzz.SmatchMatch
