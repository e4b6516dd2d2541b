import Mathlib.Data.Finset.Basic
import TdvfFuzz.Foundation.Dict
import TdvfFuzz.Foundation.Integers
import TdvfFuzz.Foundation.Lines

/-!
# `TraceParser` of `smatch_match.py`

The parser counts the edges of one trace.  At an edge into the exit token it
keeps a made-up source, which the next edge out of the token is given.
-/

namespace TdvfFuzz.SmatchMatch

open TdvfFuzz.Foundation

def exitIp : ℤ := 0xffffffffffffffff

/-! ## Edges as texts -/

def edgeToStr (src dst : ℤ) : Text := format016x src ++ ',' :: format016x dst

def edgeStrToTuple (edgeStr : Text) : Except PyError (ℤ × ℤ) :=
  match edgeStr.splitOn ',' with
  | [src, dst] => do
      let src ← int16 src
      let dst ← int16 dst
      return (src, dst)
  | _ => .error .valueError

theorem edgeStrToTuple_edgeToStr (src dst : ℤ) :
    edgeStrToTuple (edgeToStr src dst) = .ok (src, dst) := by
  have hsplit : (edgeToStr src dst).splitOn ',' = [format016x src, format016x dst] := by
    rw [edgeToStr, splitOn_append_sep _ _ _ (comma_not_mem_format016x src),
      List.splitOn_eq_singleton (comma_not_mem_format016x dst)]
  simp [edgeStrToTuple, hsplit, int16_format016x]

theorem edgeToStr_injective {src dst src' dst' : ℤ}
    (h : edgeToStr src dst = edgeToStr src' dst') : src = src' ∧ dst = dst' := by
  have hpair := edgeStrToTuple_edgeToStr src dst
  rw [h, edgeStrToTuple_edgeToStr] at hpair
  simpa [eq_comm] using hpair

/-! ## Parsing a trace -/

structure SpliceState where
  spliceIps : Finset ℤ
  bbs : Finset ℤ
  edges : Dict Text ℤ
  callers : Dict ℤ (Finset ℤ)
  backEdges : Dict Text (Finset Text)
  prevIp : ℤ
  lastEdge : Text

/-- The fields of a line, where the third one may be missing. -/
def splitFields (line : Text) : Except PyError (Text × Text × Text) :=
  match line.splitOn ',' with
  | [src, dst, num] => .ok (src, dst, num)
  | [src, dst] => .ok (src, dst, ['1'])
  | _ => .error .valueError

/-- `(src % 0xffffffff << 32) + 0xffffffff` -/
def fakeSource (src : ℤ) : ℤ := src % 0xffffffff * 2 ^ 32 + 0xffffffff

/-- The set with the source added; the return value is always `True`. -/
def doSpliceLocation (spliceIps : Finset ℤ) (src : ℤ) : Finset ℤ := insert src spliceIps

namespace SpliceState

def initial : SpliceState where
  spliceIps := ∅
  bbs := ∅
  edges := .empty
  callers := .empty
  backEdges := .empty
  prevIp := 0
  lastEdge := edgeToStr exitIp exitIp

def addEdge (s : SpliceState) (src dst num : ℤ) : SpliceState :=
  let edgeStr := edgeToStr src dst
  { s with
    edges := s.edges.set edgeStr (s.edges.getD edgeStr 0 + num)
    backEdges := s.backEdges.set edgeStr (insert s.lastEdge (s.backEdges.getD edgeStr ∅))
    callers := s.callers.set dst (insert src (s.callers.getD dst ∅))
    bbs := s.bbs ∪ {src, dst}
    lastEdge := edgeStr }

def spliceEdge (s : SpliceState) (src dst num : ℤ) : Except PyError SpliceState :=
  if dst = exitIp then
    if s.prevIp = 0 then .ok { s with prevIp := fakeSource src }
    else .error .assertionError
  else if s.prevIp = 0 then .ok (s.addEdge src dst num)
  else if src = exitIp then
    .ok ({ s with
      spliceIps := doSpliceLocation s.spliceIps s.prevIp, prevIp := 0 }.addEdge s.prevIp dst num)
  else .error .assertionError

end SpliceState

def spliceLine (s : SpliceState) (line : Text) : Except PyError SpliceState := do
  let (src, dst, num) ← splitFields line
  let src ← int16 src
  let dst ← int16 dst
  let num ← int16 num
  s.spliceEdge src dst num

structure TraceResult where
  bbs : Finset ℤ
  edges : Dict Text ℤ
  callers : Dict ℤ (Finset ℤ)
  backEdges : Dict Text (Finset Text)

def SpliceState.result (s : SpliceState) : TraceResult :=
  ⟨s.bbs, s.edges, s.callers, s.backEdges⟩

/-- The decompressed and decoded text, or `none` for a file that is missing. -/
def parseSpliceTraceFile (traceFile : Option Text) : Except PyError (Option TraceResult) :=
  match traceFile with
  | none => .ok none
  | some text => do
      let s ← (splitlines text).foldlM spliceLine .initial
      return some s.result

end TdvfFuzz.SmatchMatch
