import Mathlib.Data.List.Count
import Mathlib.Data.List.Induction
import TdvfFuzz.FastMatcher.Splice
import TdvfFuzz.SmatchMatch.TraceParser

/-!
# The two splicers agree

Both parsers read the spliced trace.  The counter of `TraceParser` has each of
its edges as often as `TraceFileIter` yields it, up to the made-up sources.
-/

namespace TdvfFuzz.SmatchMatch

open TdvfFuzz.Foundation
open TdvfFuzz.FastMatcher

def Reentry (e : Edge) : Prop := e.1 = ptToken ∧ e.2 ≠ ptToken

instance : DecidablePred Reentry := fun e =>
  inferInstanceAs (Decidable (e.1 = ptToken ∧ e.2 ≠ ptToken))

def countedEdge (x : Spliced) : Edge :=
  if x.spliced then (x.edge.1 % (2 ^ 32 - 1) * 2 ^ 32 + (2 ^ 32 - 1), x.edge.2) else x.edge

/-- The counter has the edges of the list, each as often as the list. -/
structure Counts (counter : Dict Text ℤ) (edges : List Edge) : Prop where
  count : ∀ e : Edge, counter.getD (edgeToStr e.1 e.2) 0 = edges.count e
  keys : ∀ key ∈ counter.keys, ∃ e ∈ edges, key = edgeToStr e.1 e.2
  total : counter.values.sum = edges.length

/-! ## The loop -/

theorem natCast_eq_exitIp {a : Node} : (a : ℤ) = exitIp ↔ a = ptToken :=
  Int.natCast_inj

theorem edgeToStr_natCast_inj {e e' : Edge} :
    edgeToStr e.1 e.2 = edgeToStr e'.1 e'.2 ↔ e = e' := by
  constructor
  · intro h
    obtain ⟨hsrc, hdst⟩ := edgeToStr_injective h
    exact Prod.ext (by exact_mod_cast hsrc) (by exact_mod_cast hdst)
  · rintro rfl
    rfl

theorem Counts.addEdge {s : SpliceState} {edges : List Edge} (h : Counts s.edges edges)
    (e : Edge) : Counts (s.addEdge e.1 e.2 1).edges (edges ++ [e]) := by
  refine ⟨fun e' => ?_, fun key hkey => ?_, ?_⟩
  · simp only [SpliceState.addEdge, Dict.getD_set, edgeToStr_natCast_inj, h.count,
      List.count_append]
    by_cases he : e' = e
    · simp [he]
    · simp [he, Ne.symm he]
  · rcases (Dict.mem_keys_set _ _ _ _).mp hkey with rfl | hkey
    · exact ⟨e, by simp, rfl⟩
    · obtain ⟨e', he', rfl⟩ := h.keys key hkey
      exact ⟨e', by simp [he'], rfl⟩
  · simp [SpliceState.addEdge, Dict.sum_values_set, h.total]

theorem spliceLine_text (s : SpliceState) (record : Record) :
    spliceLine s record.text = s.spliceEdge record.src.value record.dst.value 1 := by
  have hword : ∀ word : HexWord, int16 word.text = .ok word.value := fun word =>
    int16_of_hexValue word.nonempty word.digits
  have hone : int16 ['1'] = .ok 1 := by decide +kernel
  simp [spliceLine, splitFields, record.splitOn_text, hword, hone]

theorem fakeSource_ne {src : Node} :
    fakeSource src ≠ 0 ∧ fakeSource src ≠ exitIp := by
  unfold fakeSource exitIp
  omega

theorem fakeSource_natCast (src : Node) :
    fakeSource src = ((src % (2 ^ 32 - 1) * 2 ^ 32 + (2 ^ 32 - 1) : ℕ) : ℤ) := by
  unfold fakeSource
  omega

/-- No source is pending, and the counter has the edges so far. -/
structure Sim (s : SpliceState) (edges : List Edge) : Prop where
  prevIp : s.prevIp = 0
  counts : Counts s.edges edges

theorem sim_initial : Sim .initial [] :=
  ⟨rfl, by simp [SpliceState.initial], by simp [SpliceState.initial], rfl⟩

theorem Sim.countEdge {s : SpliceState} {edges : List Edge} (h : Sim s edges)
    {record : Record} (hdst : record.edge.2 ≠ ptToken) :
    ∃ s', spliceLine s record.text = .ok s' ∧ Sim s' (edges ++ [record.edge]) := by
  have hexit : (record.dst.value : ℤ) ≠ exitIp := mt natCast_eq_exitIp.mp hdst
  refine ⟨s.addEdge record.src.value record.dst.value 1, ?_, h.prevIp,
    h.counts.addEdge record.edge⟩
  simp [spliceLine_text, SpliceState.spliceEdge, hexit, h.prevIp]

theorem Sim.countReentry {s : SpliceState} {edges : List Edge} (h : Sim s edges)
    {record following : Record} (hexit : record.edge.2 = ptToken)
    (hreentry : Reentry following.edge) :
    ∃ s' s'', spliceLine s record.text = .ok s' ∧ spliceLine s' following.text = .ok s'' ∧
      Sim s'' (edges ++ [countedEdge ⟨(record.edge.1, following.edge.2), true⟩]) := by
  have hdst : (record.dst.value : ℤ) = exitIp := natCast_eq_exitIp.mpr hexit
  have hsrc : (following.src.value : ℤ) = exitIp := natCast_eq_exitIp.mpr hreentry.1
  have hreal : (following.dst.value : ℤ) ≠ exitIp := mt natCast_eq_exitIp.mp hreentry.2
  refine ⟨{ s with prevIp := fakeSource record.src.value },
    { s with
      spliceIps := doSpliceLocation s.spliceIps (fakeSource record.src.value)
      prevIp := 0 }.addEdge (fakeSource record.src.value) following.dst.value 1, ?_, ?_, rfl, ?_⟩
  · simp [spliceLine_text, SpliceState.spliceEdge, hdst, h.prevIp]
  · simp [spliceLine_text, SpliceState.spliceEdge, hreal, fakeSource_ne.1, hsrc]
  · rw [fakeSource_natCast]
    exact h.counts.addEdge (countedEdge ⟨(record.edge.1, following.edge.2), true⟩)

theorem Sim.foldlM {records : List Record} {s : SpliceState} {edges : List Edge}
    (h : Sim s edges) (hfollowed : ExitsFollowed Reentry (records.map Record.edge)) :
    ∃ s', (records.map Record.text).foldlM spliceLine s = .ok s' ∧
      Sim s' (edges ++ (splice (records.map Record.edge)).map countedEdge) := by
  induction records using List.twoStepInduction generalizing s edges with
  | nil => exact ⟨s, rfl, by simpa [splice] using h⟩
  | singleton record =>
      have hdst : record.edge.2 ≠ ptToken := hfollowed
      obtain ⟨s', hline, hsim⟩ := h.countEdge hdst
      refine ⟨s', by simp [hline], ?_⟩
      simpa [splice_of_dst_ne [] hdst, splice, countedEdge] using hsim
  | cons_cons record following rest ih ih' =>
      by_cases hexit : record.edge.2 = ptToken
      · -- the two lines are one step of the spliced trace
        have hreentry := hfollowed.1 hexit
        obtain ⟨s', s'', hline, hline', hsim⟩ := h.countReentry hexit hreentry
        obtain ⟨final, hfold, hfinal⟩ := ih hsim (by
          cases rest with
          | nil => trivial
          | cons _ _ => exact hfollowed.2.2)
        refine ⟨final, by simp [hline, hline', hfold], ?_⟩
        rw [List.map_cons, List.map_cons, splice, if_pos hexit, splice_of_dst_ne _ hreentry.2]
        simpa using hfinal
      · obtain ⟨s', hline, hsim⟩ := h.countEdge hexit
        obtain ⟨final, hfold, hfinal⟩ := ih' following hsim hfollowed.2
        refine ⟨final, by simpa [hline] using hfold, ?_⟩
        rw [List.map_cons, splice_of_dst_ne _ hexit]
        simpa [countedEdge] using hfinal

/-! ## Both parsers -/

theorem splicers_agree (trace : TraceText) (h : ExitsFollowed Reentry trace.edges) :
    traceEdges (linesOf trace.text) = ((splice trace.edges).map Spliced.edge, false) ∧
    ∃ result, parseSpliceTraceFile (some trace.text) = .ok (some result) ∧
      Counts result.edges ((splice trace.edges).map countedEdge) ∧
      ((splice trace.edges).map countedEdge).map Prod.snd =
        (traceEdges (linesOf trace.text)).1.map Prod.snd ∧
      result.edges.values.sum = (traceEdges (linesOf trace.text)).1.length ∧
      (∀ e ∈ (traceEdges (linesOf trace.text)).1, e.2 ≠ ptToken) ∧
      ∀ src, edgeToStr src exitIp ∉ result.edges.keys := by
  have hrust := trace.traceEdges_linesOf (h.mono fun e he => he.1)
  have hlines : splitlines trace.text = trace.records.map Record.text :=
    trace.linesAt_text (by decide) fun c hc => by
      simp only [isLineBreak, Bool.or_eq_false_iff, Bool.and_eq_false_iff, decide_eq_false_iff_not,
        beq_eq_false_iff_ne]
      omega
  obtain ⟨s, hfold, hsim⟩ := sim_initial.foldlM h
  have hcounts : Counts s.edges ((splice trace.edges).map countedEdge) := hsim.counts
  have hdst : ∀ x, (countedEdge x).2 = x.edge.2 := fun x => by
    unfold countedEdge
    split <;> rfl
  rw [hrust]
  refine ⟨rfl, s.result, ?_, hcounts, ?_, ?_, ?_, fun src hkey => ?_⟩
  · simp [parseSpliceTraceFile, hlines, hfold]
  · simp [hdst]
  · simpa [SpliceState.result] using hcounts.total
  · simpa using h.dst_ne
  · obtain ⟨e, he, heq⟩ := hcounts.keys _ hkey
    obtain ⟨x, hx, rfl⟩ := List.mem_map.mp he
    obtain ⟨-, hexit⟩ := edgeToStr_injective heq
    rw [hdst] at hexit
    exact h.dst_ne x hx (natCast_eq_exitIp.mp hexit.symm)

/-- `ffffffffffffffff,10`, `20,FFFFFFFFFFFFFFFF` and `ffffffffffffffff,30`. -/
def reentries : TraceText :=
  let word (digit : Char) (h : hexValue 0 (List.replicate 16 digit) = some ptToken) : HexWord :=
    ⟨List.replicate 16 digit, ptToken, by simp, h, by decide⟩
  let lower := word 'f' (by decide +kernel)
  let upper := word 'F' (by decide +kernel)
  ⟨[(⟨lower, ⟨"10".toList, 0x10, by decide, by decide +kernel, by decide⟩⟩, .newline),
    (⟨⟨"20".toList, 0x20, by decide, by decide +kernel, by decide⟩, upper⟩, .carriageReturn)],
    some ⟨lower, ⟨"30".toList, 0x30, by decide, by decide +kernel, by decide⟩⟩⟩

theorem splicers_agree_reentries :
    ExitsFollowed Reentry reentries.edges ∧
    ∃ result, parseSpliceTraceFile (some reentries.text) = .ok (some result) ∧
      Counts result.edges ((splice reentries.edges).map countedEdge) := by
  have h : ExitsFollowed Reentry reentries.edges := by decide +kernel
  obtain ⟨-, result, hparse, hcounts, -⟩ := splicers_agree reentries h
  exact ⟨h, result, hparse, hcounts⟩

end TdvfFuzz.SmatchMatch
