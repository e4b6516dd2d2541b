import TdvfFuzz.FastMatcher.Output

/-!
# The last address of a range

A row that begins at the last address of a maximal range is not looked up for
that address.  Its location is still a hit if another row reports it.
-/

namespace TdvfFuzz.FastMatcher

open TdvfFuzz.Foundation

section

variable {S : Type} (R : RangeInclusiveSet S) (ctx : Context) (smatchData : SmatchData)
  (options : Options)

def RowVisited (files : List TraceFile) (row : Row) : Prop :=
  ∃ lines, some lines ∈ files ∧
    ((∃ a, EndPoint (traceEdges lines).1 a ∧ row.start ≤ a ∧ a < row.stop) ∨
      ∃ pair ∈ (traceEdges lines).1.zip (traceEdges lines).1.tail,
        pair.1.2 ≤ pair.2.1 ∧ SharesFunction ctx smatchData pair.1.2 pair.2.1 ∧
        row.start ≤ pair.2.1 ∧ pair.1.2 < row.stop)

def VisitedRowsHit (files : List TraceFile) (s : State S) : Prop :=
  ∀ row ∈ ctx.rows, RowVisited ctx smatchData files row →
    lineInfo options.pre row.location ∈ hitsOf R ctx smatchData options s

/--
Where a row begins at the last address of a run of traced addresses, some row
that is looked up has its location.
-/
def LastAddressesShared (files : List TraceFile) : Prop :=
  ∀ row ∈ ctx.rows, row.start ∈ addressesOf ctx smatchData files →
    row.start + 1 ∉ addressesOf ctx smatchData files →
    ∃ other ∈ ctx.rows, other.Reached (addressesOf ctx smatchData files) ∧
      lineInfo options.pre row.location ∈ rowLineinfos ctx options.pre options.frames other

variable {R ctx smatchData options}

theorem rowVisited_iff {files : List TraceFile}
    (hfiles : ∀ file ∈ files, ∃ lines, file = some lines ∧ WellFormed lines) (row : Row) :
    RowVisited ctx smatchData files row ↔
      ∃ a ∈ addressesOf ctx smatchData files, row.start ≤ a ∧ a < row.stop := by
  constructor
  · rintro ⟨lines, hlines, hvisited⟩
    obtain ⟨lines', hsome, hwell⟩ := hfiles _ hlines
    obtain rfl := Option.some.inj hsome
    have haddress : ∀ a, EdgeAddress ctx smatchData (traceEdges lines).1 a →
        a ∈ addressesOf ctx smatchData files := fun a ha =>
      ⟨some lines, hlines, lines, rfl, hwell.traceEdges.1, ha⟩
    rcases hvisited with ⟨a, ha, hrow⟩ | ⟨pair, hpair, hle, hshares, hstart, hstop⟩
    · exact ⟨a, haddress a (.inl ha), hrow⟩
    · -- the first address that the block and the row have in common
      exact ⟨max row.start pair.1.2,
        haddress _ (.inr ⟨pair, hpair, hshares, le_max_right _ _, max_le hstart hle⟩),
        le_max_left _ _, max_lt row.nonempty hstop⟩
  · rintro ⟨a, ⟨file, hfile, lines, rfl, -, hedge⟩, hstart, hstop⟩
    refine ⟨lines, hfile, ?_⟩
    rcases hedge with hend | ⟨pair, hpair, hshares, hlo, hhi⟩
    · exact .inl ⟨a, hend, hstart, hstop⟩
    · exact .inr ⟨pair, hpair, hlo.trans hhi, hshares, hstart.trans hhi, hlo.trans_lt hstop⟩

theorem not_panics_of_wellFormed {file : TraceFile}
    (h : ∃ lines, file = some lines ∧ WellFormed lines) : ¬ Panics file := by
  obtain ⟨lines, rfl, hwell⟩ := h
  simp [Panics, hwell.traceEdges.1]

theorem reached_or_last {addresses : Set Node} {row : Row} {a : Node}
    (ha : a ∈ addresses) (hstart : row.start ≤ a) (hstop : a < row.stop) :
    row.Reached addresses ∨ (row.start ∈ addresses ∧ row.start + 1 ∉ addresses) := by
  by_cases hfirst : row.start = a
  · by_cases hsucc : row.start + 1 ∈ addresses
    · exact .inl (.inr ⟨hfirst ▸ ha, hsucc⟩)
    · exact .inr ⟨hfirst ▸ ha, hsucc⟩
  · exact .inl (.inl ⟨a, ha, lt_of_le_of_ne hstart hfirst, hstop⟩)

end

theorem visitedRowsHit_iff {S : Type} (R : RangeInclusiveSet S) (ctx : Context)
    (smatchData : SmatchData) (options : Options) (hall : options.allVisited = true)
    (files : List TraceFile)
    (hfiles : ∀ file ∈ files, ∃ lines, file = some lines ∧ WellFormed lines)
    (nproc : ℕ) (hproc : 0 < nproc) (s : State S)
    (h : (workersOf R ctx smatchData files nproc).Reachable s) (hdone : Done s) :
    VisitedRowsHit R ctx smatchData options files s ↔
      LastAddressesShared ctx smatchData options files := by
  have hcount : panicCount files = 0 :=
    panicCount_eq_zero fun file hfile => not_panics_of_wellFormed (hfiles file hfile)
  have haddresses : covered (R.iter s.rangesDb) = addressesOf ctx smatchData files :=
    addresses_of_few_panics h hdone (by omega)
  have hhits : ∀ info, info ∈ hitsOf R ctx smatchData options s ↔
      ∃ row ∈ ctx.rows, row.Reached (addressesOf ctx smatchData files) ∧
        info ∈ rowLineinfos ctx options.pre options.frames row := by
    intro info
    rw [hitsOf, mem_collectHits hall (R.separated_iter s.rangesDb), haddresses]
  constructor
  · intro hvisited row hrow hstart hlast
    have := row.nonempty
    rw [← hhits]
    exact hvisited row hrow ((rowVisited_iff hfiles row).mpr
      ⟨row.start, hstart, le_refl _, this⟩)
  · intro hshared row hrow hvisited
    obtain ⟨a, ha, hstart, hstop⟩ := (rowVisited_iff hfiles row).mp hvisited
    rw [hhits]
    rcases reached_or_last ha hstart hstop with hreached | ⟨hfirst, hlast⟩
    · exact ⟨row, hrow, hreached, by simp [rowLineinfos]⟩
    · exact hshared row hrow hfirst hlast

/-! ## A single edge -/

def allVisited : Options := ⟨[], false, true⟩

def oneEdge : TraceFile := some [some "10,20".toList]

def insideRow : Context := .ofRows [⟨0x0f, 0x14, ⟨"a.c".toList, 5⟩, by decide⟩]

theorem visitedRowsHit_iff_oneEdge :
    ∃ s, (workersOf .lists insideRow [] [oneEdge] 1).Reachable s ∧
      (VisitedRowsHit .lists insideRow [] allVisited [oneEdge] s ↔
        LastAddressesShared insideRow [] allVisited [oneEdge]) := by
  obtain ⟨s, h, hdone⟩ := exists_done .lists insideRow []
    (.init : (workersOf .lists insideRow [] [oneEdge] 1).ReachableBy Fifo _)
  exact ⟨s, h.reachable, visitedRowsHit_iff .lists insideRow [] allVisited rfl [oneEdge]
    (by simpa using ⟨_, rfl, by decide +kernel⟩) 1 (by decide) s h.reachable hdone⟩

def sourceRow : Context := .ofRows [⟨0x10, 0x14, ⟨"a.c".toList, 5⟩, by decide⟩]

def mergeOneEdge : List Action :=
  [.pull 0 0, .read 0, .lock 0, .insert 0, .insert 0, .unlock 0, .stop 0]

theorem mergeOneEdge_enabled : ((workersOf .lists sourceRow [] [oneEdge] 1).run
    (workersOf .lists sourceRow [] [oneEdge] 1).init mergeOneEdge).isSome := by
  decide +kernel

def mergedOneEdge : State {l : List Interval // Separated l} :=
  Option.get _ mergeOneEdge_enabled

/-- The row that begins at the edge's source is not found. -/
theorem source_row_missed :
    WellFormed [some "10,20".toList] ∧
      (workersOf .lists sourceRow [] [oneEdge] 1).Reachable mergedOneEdge ∧
      Done mergedOneEdge ∧
      ¬ VisitedRowsHit .lists sourceRow [] allVisited [oneEdge] mergedOneEdge := by
  refine ⟨by decide +kernel,
    Machine.Reachable.run (.init _) mergeOneEdge (by simp [mergedOneEdge]),
    by decide +kernel, fun hvisited => ?_⟩
  have hmissed := hvisited _ (List.mem_singleton.mpr rfl) ⟨_, List.mem_singleton.mpr rfl,
    .inl ⟨0x10, ⟨(0x10, 0x20), by decide +kernel, .inl rfl⟩, le_refl _, by decide⟩⟩
  revert hmissed
  decide +kernel

end TdvfFuzz.FastMatcher
