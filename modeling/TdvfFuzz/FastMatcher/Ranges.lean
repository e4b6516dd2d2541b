import Mathlib.Data.Finset.Card
import Mathlib.Data.Finset.Lattice.Basic
import TdvfFuzz.FastMatcher.Path
import TdvfFuzz.FastMatcher.Trace
import TdvfFuzz.Foundation.Intervals

/-!
# Address ranges of a trace

Each trace is folded into a set of address ranges: the end points of its edges,
and the stretch from one edge's destination to the next edge's source where
both lie in a function of the report.
-/

namespace TdvfFuzz.FastMatcher

open TdvfFuzz.Foundation

abbrev Function := Text

/-! ## Debug information -/

structure Location where
  file : Text
  line : UInt32
  deriving DecidableEq, Repr

structure Frame where
  function : Option Function
  location : Option Location
  deriving DecidableEq, Repr

/-- The addresses from `start` up to, but not including, `stop`. -/
structure Row where
  start : Node
  stop : Node
  location : Location
  nonempty : start < stop
  deriving DecidableEq, Repr

/--
What is looked up in the debug information.  Lookups depend on the address
only, and the results that the program unwraps are present.
-/
structure Context where
  findFrames : Node → List Frame
  rows : List Row
  findLocationRange : Node → Node → List Row
  located : ∀ addr, ∀ frame ∈ findFrames addr,
    frame.function.isSome → frame.location.isSome
  /-- The upper end of a probe is exclusive. -/
  mem_findLocationRange : ∀ lo hi row,
    row ∈ findLocationRange lo hi ↔ row ∈ rows ∧ row.start < hi ∧ lo < row.stop

def probeRows (rows : List Row) (lo hi : Node) : List Row :=
  rows.filter fun row => row.start < hi ∧ lo < row.stop

theorem mem_probeRows (rows : List Row) (lo hi : Node) (row : Row) :
    row ∈ probeRows rows lo hi ↔ row ∈ rows ∧ row.start < hi ∧ lo < row.stop := by
  simp [probeRows]

def Context.ofRows (rows : List Row) : Context where
  findFrames _ := []
  rows := rows
  findLocationRange := probeRows rows
  located := by simp
  mem_findLocationRange := mem_probeRows rows

/-- `LineInfo::from(location)` -/
def LineInfo.ofLocation (location : Location) : LineInfo :=
  .new (components location.file) location.line

def getAddrFuncs (ctx : Context) (addr : Node) : List (Function × LineInfo) :=
  if addr = ptToken then []
  else (ctx.findFrames addr).filterMap fun frame =>
    match frame.function, frame.location with
    | some func, some location => some (func, .ofLocation location)
    | _, _ => none

/-! ## Folding a trace -/

/-- The locations of a report with their functions, one function a location. -/
abbrev SmatchData := List (LineInfo × Function)

def smatchFuncs (smatchData : SmatchData) : Finset Function :=
  (smatchData.map Prod.snd).toFinset

def frameFuncs (ctx : Context) (addr : Node) : Finset Function :=
  ((getAddrFuncs ctx addr).map Prod.fst).toFinset

/-- `func_intersect_len > 0` -/
def SharesFunction (ctx : Context) (smatchData : SmatchData) (prevDst src : Node) :
    Prop :=
  0 < ((frameFuncs ctx prevDst ∩ frameFuncs ctx src) ∩ smatchFuncs smatchData).card

instance (ctx : Context) (smatchData : SmatchData) (prevDst src : Node) :
    Decidable (SharesFunction ctx smatchData prevDst src) :=
  inferInstanceAs (Decidable (0 < _))

/-- `prev_dst..=src`, if it is inserted. -/
def blockRange (ctx : Context) (smatchData : SmatchData) (prevDst src : Node) :
    Option Interval :=
  if h : prevDst ≤ src ∧ SharesFunction ctx smatchData prevDst src then
    some ⟨prevDst, src, h.1⟩
  else none

section

variable {S : Type} (R : RangeInclusiveSet S) (ctx : Context) (smatchData : SmatchData)

def insertAll (ranges : S) (new : List Interval) : S := new.foldl R.insert ranges

def edgeRanges (prevEdge : Option Edge) (edge : Edge) : List Interval :=
  (match prevEdge with
    | none => []
    | some prev => (blockRange ctx smatchData prev.2 edge.1).toList) ++
  [.single edge.1, .single edge.2]

/-- `for edge in ti` -/
def foldEdges : S → Option Edge → List Edge → S
  | ranges, _, [] => ranges
  | ranges, prevEdge, edge :: rest =>
      foldEdges (insertAll R ranges (edgeRanges ctx smatchData prevEdge edge))
        (some edge) rest

/-- `none` for a file that cannot be opened or decompressed. -/
abbrev TraceFile := Option Lines

/-- `none` if reading the file panics. -/
def readTraceFileGetRanges (file : TraceFile) : Option S :=
  match file with
  | none => none
  | some lines =>
      let (edges, panicked) := traceEdges lines
      if panicked then none else some (foldEdges R ctx smatchData R.new none edges)

end

/-! ## The addresses of a trace -/

/-- The address lies in the block between two consecutive edges. -/
def BlockAddress (ctx : Context) (smatchData : SmatchData) (edges : List Edge) (a : Node) :
    Prop :=
  ∃ pair ∈ edges.zip edges.tail, SharesFunction ctx smatchData pair.1.2 pair.2.1 ∧
    pair.1.2 ≤ a ∧ a ≤ pair.2.1

def EndPoint (edges : List Edge) (a : Node) : Prop := ∃ e ∈ edges, a = e.1 ∨ a = e.2

def EdgeAddress (ctx : Context) (smatchData : SmatchData) (edges : List Edge) (a : Node) :
    Prop :=
  EndPoint edges a ∨ BlockAddress ctx smatchData edges a

def FileAddress (ctx : Context) (smatchData : SmatchData) (file : TraceFile) (a : Node) :
    Prop :=
  ∃ lines, file = some lines ∧ (traceEdges lines).2 = false ∧
    EdgeAddress ctx smatchData (traceEdges lines).1 a

section

variable {S : Type} {R : RangeInclusiveSet S} {ctx : Context} {smatchData : SmatchData}

theorem addresses_insertAll (ranges : S) (new : List Interval) :
    R.addresses (insertAll R ranges new) = R.addresses ranges ∪ covered new :=
  R.addresses_foldl ranges new

theorem mem_blockRange {prevDst src a : Node} :
    (∃ i ∈ blockRange ctx smatchData prevDst src, i.lo ≤ a ∧ a ≤ i.hi) ↔
      SharesFunction ctx smatchData prevDst src ∧ prevDst ≤ a ∧ a ≤ src := by
  unfold blockRange
  split
  case isTrue h => simp [h.2]
  case isFalse h =>
    simp only [Option.mem_def, reduceCtorEq, false_and, exists_false, false_iff]
    rintro ⟨hshares, hlo, hhi⟩
    exact h ⟨hlo.trans hhi, hshares⟩

theorem blockAddress_cons_cons {prev edge : Edge} {rest : List Edge} {a : Node} :
    BlockAddress ctx smatchData (prev :: edge :: rest) a ↔
      (SharesFunction ctx smatchData prev.2 edge.1 ∧ prev.2 ≤ a ∧ a ≤ edge.1) ∨
        BlockAddress ctx smatchData (edge :: rest) a := by
  simp [BlockAddress]

theorem mem_covered_edgeRanges (prevEdge : Option Edge) (edge : Edge) (rest : List Edge)
    (a : Node) :
    a ∈ covered (edgeRanges ctx smatchData prevEdge edge) ∨
        BlockAddress ctx smatchData (edge :: rest) a ↔
      (a = edge.1 ∨ a = edge.2) ∨
        BlockAddress ctx smatchData (prevEdge.toList ++ edge :: rest) a := by
  have hends : a ∈ covered [.single edge.1, .single edge.2] ↔ a = edge.1 ∨ a = edge.2 := by
    rw [← List.singleton_append, mem_covered_append, mem_covered_single, mem_covered_single]
  cases prevEdge with
  | none => rw [edgeRanges, List.nil_append, hends, Option.toList_none, List.nil_append]
  | some prev =>
      have hblock : a ∈ covered (blockRange ctx smatchData prev.2 edge.1).toList ↔
          SharesFunction ctx smatchData prev.2 edge.1 ∧ prev.2 ≤ a ∧ a ≤ edge.1 := by
        rw [← mem_blockRange]
        simp
      rw [edgeRanges, mem_covered_append, hends, hblock, Option.toList_some,
        List.singleton_append, blockAddress_cons_cons, or_assoc, or_left_comm]

theorem addresses_foldEdges (ranges : S) (prevEdge : Option Edge) (edges : List Edge) :
    R.addresses (foldEdges R ctx smatchData ranges prevEdge edges) =
      R.addresses ranges ∪ {a | EndPoint edges a ∨
        BlockAddress ctx smatchData (prevEdge.toList ++ edges) a} := by
  induction edges generalizing ranges prevEdge with
  | nil =>
      cases prevEdge <;> simp [foldEdges, EndPoint, BlockAddress]
  | cons edge rest ih =>
      ext a
      have hregroup : ∀ {x c e b p q : Prop}, (c ∨ b ↔ p ∨ q) →
          ((x ∨ c) ∨ (e ∨ b) ↔ x ∨ ((p ∨ e) ∨ q)) := by grind
      rw [foldEdges, ih, addresses_insertAll]
      simp only [Set.mem_union, Set.mem_ofPred_eq, EndPoint, List.exists_mem_cons_iff]
      exact hregroup (mem_covered_edgeRanges prevEdge edge rest a)

def Panics (file : TraceFile) : Prop :=
  match file with
  | none => True
  | some lines => (traceEdges lines).2 = true

instance (file : TraceFile) : Decidable (Panics file) :=
  match file with
  | none => isTrue trivial
  | some lines => inferInstanceAs (Decidable ((traceEdges lines).2 = true))

theorem readTraceFileGetRanges_eq_none {file : TraceFile} :
    readTraceFileGetRanges R ctx smatchData file = none ↔ Panics file := by
  cases file with
  | none => simp [readTraceFileGetRanges, Panics]
  | some lines =>
      simp only [readTraceFileGetRanges, Panics]
      split <;> simp_all

theorem addresses_readTraceFileGetRanges {file : TraceFile} {ranges : S}
    (h : readTraceFileGetRanges R ctx smatchData file = some ranges) :
    R.addresses ranges = {a | FileAddress ctx smatchData file a} := by
  cases file with
  | none => simp [readTraceFileGetRanges] at h
  | some lines =>
      simp only [readTraceFileGetRanges] at h
      split at h
      · simp at h
      case isFalse hpanicked =>
        obtain rfl := Option.some.inj h
        rw [addresses_foldEdges, R.addresses_new, Set.empty_union]
        ext a
        simp only [FileAddress, EdgeAddress, Set.mem_ofPred_eq, Option.toList_none,
          List.nil_append, Option.some.injEq, exists_eq_left', Bool.not_eq_true] at hpanicked ⊢
        simp [hpanicked]

end

end TdvfFuzz.FastMatcher
