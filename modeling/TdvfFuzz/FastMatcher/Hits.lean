import TdvfFuzz.FastMatcher.Ranges

/-!
# From address ranges to locations

The merged ranges are closed, and are looked up with a probe whose upper end is
exclusive.  A row is found by the traced addresses behind its first one, or if
its first two addresses are traced.
-/

namespace TdvfFuzz.FastMatcher

open TdvfFuzz.Foundation

/-! ## The lookups -/

def lineInfo (pre : List Component) (location : Location) : LineInfo :=
  .new (stripPrefix pre (components location.file)) location.line

def getAddrFrameLineinfos (ctx : Context) (addr : Node) (pre : List Component) :
    List LineInfo :=
  if addr = ptToken then []
  else ((ctx.findFrames addr).filterMap fun frame =>
    frame.location.map (lineInfo pre)).dedup

def rowLineinfos (ctx : Context) (pre : List Component) (includeFrames : Bool)
    (row : Row) : List LineInfo :=
  lineInfo pre row.location ::
    if includeFrames then getAddrFrameLineinfos ctx row.start pre else []

def getAddrLineinfoRange (ctx : Context) (start stop : Node) (pre : List Component)
    (includeFrames : Bool) : List LineInfo :=
  (ctx.findLocationRange start stop).flatMap (rowLineinfos ctx pre includeFrames)

/-- `--prefix`, `--frames` and `--all-visited`. -/
structure Options where
  pre : List Component
  frames : Bool
  allVisited : Bool
  deriving DecidableEq, Repr

/-- `for range in ranges.iter()` -/
def collectHits (ctx : Context) (smatchEntries : SmatchData) (options : Options)
    (ranges : List Interval) : Finset LineInfo :=
  ((ranges.flatMap fun range =>
    getAddrLineinfoRange ctx range.lo range.hi options.pre options.frames).filter
    fun info => info ∈ smatchEntries.map Prod.fst ∨ options.allVisited).toFinset

/-! ## Which rows are found -/

/-- The row is found by a probe for the maximal ranges of `addresses`. -/
def Row.Reached (addresses : Set Node) (row : Row) : Prop :=
  (∃ a ∈ addresses, row.start < a ∧ a < row.stop) ∨
    (row.start ∈ addresses ∧ row.start + 1 ∈ addresses)

theorem mem_collectHits {ctx : Context} {smatchEntries : SmatchData} {options : Options}
    (hall : options.allVisited = true) {ranges : List Interval} (h : Separated ranges)
    {info : LineInfo} :
    info ∈ collectHits ctx smatchEntries options ranges ↔
      ∃ row ∈ ctx.rows, row.Reached (covered ranges) ∧
        info ∈ rowLineinfos ctx options.pre options.frames row := by
  have hrow : ∀ row : Row, row.Reached (covered ranges) ↔
      ∃ range ∈ ranges, row.start < range.hi ∧ range.lo < row.stop := fun row =>
    (h.exists_probe_iff row.nonempty).symm
  simp only [collectHits, getAddrLineinfoRange, ctx.mem_findLocationRange, hall, or_true,
    List.mem_toFinset, List.mem_filter, List.mem_flatMap, decide_true, and_true, hrow]
  constructor
  · rintro ⟨range, hrange, row, ⟨hmem, hprobe⟩, hinfo⟩
    exact ⟨row, hmem, ⟨range, hrange, hprobe⟩, hinfo⟩
  · rintro ⟨row, hmem, ⟨range, hrange, hprobe⟩, hinfo⟩
    exact ⟨range, hrange, row, ⟨hmem, hprobe⟩, hinfo⟩

end TdvfFuzz.FastMatcher
