import Mathlib.Algebra.BigOperators.Group.List.Basic
import Mathlib.Data.List.Perm.Basic
import TdvfFuzz.SmatchMatch.TraceGraph

/-!
# Consistency of the reports

After each trace the merged graph is that of all lines so far, and the last row
of the plot has its size.
-/

namespace TdvfFuzz.SmatchMatch

open TdvfFuzz.Foundation

/-! ## The lines of a list of traces -/

def allLines (traces : List (ℚ × Option Text)) : List SplicedLine :=
  traces.flatMap fun trace => traceLines trace.2

def seenEdges (traces : List (ℚ × Option Text)) : Finset (ℤ × ℤ) :=
  ((allLines traces).map fun line => (line.src, line.dst)).toFinset

def seenBbs (traces : List (ℚ × Option Text)) : Finset ℤ :=
  (seenEdges traces).image Prod.fst ∪ (seenEdges traces).image Prod.snd

def present (traces : List (ℚ × Option Text)) : List (ℚ × Option Text) :=
  traces.filter fun trace => trace.2.isSome

theorem mem_seenEdges {traces : List (ℚ × Option Text)} {src dst : ℤ} :
    (src, dst) ∈ seenEdges traces ↔ ∃ line ∈ allLines traces, line.src = src ∧ line.dst = dst := by
  simp [seenEdges]

theorem mem_seenBbs {traces : List (ℚ × Option Text)} {b : ℤ} :
    b ∈ seenBbs traces ↔ ∃ line ∈ allLines traces, b = line.src ∨ b = line.dst := by
  simp only [seenBbs, seenEdges, Finset.mem_union, Finset.mem_image, List.mem_toFinset,
    List.mem_map, exists_exists_and_eq_and, ← exists_or, ← and_or_left, eq_comm (a := b)]

theorem allLines_append (traces traces' : List (ℚ × Option Text)) :
    allLines (traces ++ traces') = allLines traces ++ allLines traces' :=
  List.flatMap_append

theorem allLines_present (traces : List (ℚ × Option Text)) :
    allLines (present traces) = allLines traces := by
  induction traces with
  | nil => rfl
  | cons trace traces ih =>
      obtain ⟨timestamp, trace⟩ := trace
      cases trace with
      | none => simpa [allLines, present, traceLines] using ih
      | some text => simpa [allLines, present] using ih

theorem seenEdges_subset {traces traces' : List (ℚ × Option Text)}
    (h : ∀ trace ∈ traces, trace ∈ traces') : seenEdges traces ⊆ seenEdges traces' := by
  rintro ⟨src, dst⟩
  simp only [mem_seenEdges, allLines, List.mem_flatMap]
  rintro ⟨line, ⟨trace, htrace, hline⟩, hedge⟩
  exact ⟨line, ⟨trace, h trace htrace, hline⟩, hedge⟩

theorem seenBbs_subset {traces traces' : List (ℚ × Option Text)}
    (h : ∀ trace ∈ traces, trace ∈ traces') : seenBbs traces ⊆ seenBbs traces' :=
  Finset.union_subset_union (Finset.image_subset_image (seenEdges_subset h))
    (Finset.image_subset_image (seenEdges_subset h))

/-! ## After some traces -/

def Reports.graph (reports : Reports) : TraceResult :=
  ⟨reports.uniqueBbs, reports.uniqueEdges, reports.callers, reports.globalBackEdges⟩

def plotRow (timestamp : ℚ) (seen : List (ℚ × Option Text)) : PlotRow :=
  ⟨timestamp, (seenBbs seen).card, (seenEdges seen).card⟩

structure Collected (seen : List (ℚ × Option Text)) (reports : Reports) : Prop where
  graph : GraphOf (allLines seen) reports.graph
  numBbs : reports.numBbs = (seenBbs seen).card
  numEdges : reports.numEdges = (seenEdges seen).card
  plotLength : reports.plot.length = (present seen).length
  plot : ∀ i trace, (present seen)[i]? = some trace →
    reports.plot[i]? = some (plotRow trace.1 ((present seen).take (i + 1)))

theorem graph_addFindings (reports : Reports) (timestamp : ℚ) (findings : TraceResult) :
    (reports.addFindings timestamp findings).graph = mergeGraph reports.graph findings := rfl

theorem GraphOf.bbs_eq {seen : List (ℚ × Option Text)} {g : TraceResult}
    (h : GraphOf (allLines seen) g) : g.bbs = seenBbs seen := by
  ext b
  rw [h.bbs, mem_seenBbs]

theorem GraphOf.card_keys {seen : List (ℚ × Option Text)} {g : TraceResult}
    (h : GraphOf (allLines seen) g) : g.edges.keys.toFinset.card = (seenEdges seen).card := by
  have himage : g.edges.keys.toFinset =
      (seenEdges seen).image fun edge => edgeToStr edge.1 edge.2 := by
    ext key
    rw [List.mem_toFinset, h.edges, Finset.mem_image]
    constructor
    · rintro ⟨line, hline, rfl⟩
      exact ⟨(line.src, line.dst), mem_seenEdges.mpr ⟨line, hline, rfl, rfl⟩, rfl⟩
    · rintro ⟨⟨src, dst⟩, hedge, rfl⟩
      obtain ⟨line, hline, rfl, rfl⟩ := mem_seenEdges.mp hedge
      exact ⟨line, hline, rfl⟩
  rw [himage]
  apply Finset.card_image_of_injOn
  rintro ⟨src, dst⟩ - ⟨src', dst'⟩ - heq
  obtain ⟨rfl, rfl⟩ := edgeToStr_injective heq
  rfl

theorem present_concat {seen : List (ℚ × Option Text)} {timestamp : ℚ} {trace : Option Text}
    (hsome : trace.isSome = true) :
    present (seen ++ [(timestamp, trace)]) = present seen ++ [(timestamp, trace)] := by
  simp [present, hsome]

theorem seenBbs_present (traces : List (ℚ × Option Text)) :
    seenBbs (present traces) = seenBbs traces := by
  simp only [seenBbs, seenEdges, allLines_present]

theorem seenEdges_present (traces : List (ℚ × Option Text)) :
    seenEdges (present traces) = seenEdges traces := by
  simp only [seenEdges, allLines_present]

theorem Collected.addFindings {seen : List (ℚ × Option Text)} {reports : Reports}
    (h : Collected seen reports) {timestamp : ℚ} {trace : Option Text} {findings : TraceResult}
    (hsome : trace.isSome = true) (hfindings : GraphOf (traceLines trace) findings) :
    Collected (seen ++ [(timestamp, trace)]) (reports.addFindings timestamp findings) := by
  have hgraph : GraphOf (allLines (seen ++ [(timestamp, trace)]))
      (reports.addFindings timestamp findings).graph := by
    rw [allLines_append, graph_addFindings]
    simpa [allLines] using h.graph.append hfindings
  have hnumBbs : reports.numBbs + (findings.bbs \ reports.uniqueBbs).card =
      (seenBbs (seen ++ [(timestamp, trace)])).card := by
    have hold : reports.numBbs = reports.uniqueBbs.card := by
      rw [h.numBbs, ← h.graph.bbs_eq]
      rfl
    rw [← hgraph.bbs_eq, hold, graph_addFindings, mergeGraph, Finset.union_comm,
      ← Finset.card_sdiff_add_card, add_comm]
    rfl
  have hnumEdges : reports.numEdges +
      (findings.edges.keys.toFinset \ reports.uniqueEdges.keys.toFinset).card =
      (seenEdges (seen ++ [(timestamp, trace)])).card := by
    have hold : reports.numEdges = reports.uniqueEdges.keys.toFinset.card := by
      rw [h.numEdges, ← h.graph.card_keys]
      rfl
    have hkeys : (mergeGraph reports.graph findings).edges.keys.toFinset =
        findings.edges.keys.toFinset ∪ reports.uniqueEdges.keys.toFinset := by
      ext key
      simp [mergeGraph, Dict.mem_keys_merge, Reports.graph, or_comm]
    rw [← hgraph.card_keys, hold, graph_addFindings, hkeys, ← Finset.card_sdiff_add_card, add_comm]
  have hplot : (reports.addFindings timestamp findings).plot =
      reports.plot ++ [plotRow timestamp (present seen ++ [(timestamp, trace)])] := by
    rw [Reports.addFindings, plotRow, ← present_concat hsome, seenBbs_present, seenEdges_present,
      ← hnumBbs, ← hnumEdges]
  refine ⟨hgraph, hnumBbs, hnumEdges, ?_, ?_⟩
  · rw [hplot, present_concat hsome, List.length_append, List.length_append, h.plotLength]
    rfl
  · intro i row hrow
    rw [present_concat hsome] at hrow ⊢
    rw [hplot]
    by_cases hi : i < (present seen).length
    · rw [List.getElem?_append_left hi] at hrow
      rw [List.getElem?_append_left (h.plotLength ▸ hi), h.plot i row hrow,
        List.take_append_of_le_length (by omega)]
    · obtain rfl : i = (present seen).length := by
        have := (List.getElem?_eq_some_iff.mp hrow).1
        simp at this
        omega
      obtain rfl : (timestamp, trace) = row := by simpa using hrow
      rw [← h.plotLength, List.getElem?_concat_length, h.plotLength,
        List.take_of_length_le (by simp)]

theorem Collected.addTrace {seen : List (ℚ × Option Text)} {reports : Reports}
    (h : Collected seen reports) {trace : ℚ × Option Text} {findings : Option TraceResult}
    (hparse : parseSpliceTraceFile trace.2 = .ok findings) :
    Collected (seen ++ [trace]) (reports.addTrace (trace.1, findings)) := by
  obtain ⟨timestamp, trace⟩ := trace
  rcases graphOf_parse hparse with ⟨rfl, rfl⟩ | ⟨hsome, result, rfl, hgraph⟩
  · have hlines : allLines (seen ++ [(timestamp, none)]) = allLines seen := by
      simp [allLines, traceLines]
    have hpresent : present (seen ++ [(timestamp, none)]) = present seen := by
      simp [present]
    refine ⟨hlines ▸ h.graph, ?_, ?_, hpresent ▸ h.plotLength, hpresent ▸ h.plot⟩
    · rw [seenBbs, seenEdges, hlines]
      exact h.numBbs
    · rw [seenEdges, hlines]
      exact h.numEdges
  · exact h.addFindings hsome hgraph

theorem parseTraces_cons {trace : ℚ × Option Text} {traces : List (ℚ × Option Text)}
    {results : List (ℚ × Option TraceResult)} :
    parseTraces (trace :: traces) = .ok results ↔ ∃ findings rest,
      parseSpliceTraceFile trace.2 = .ok findings ∧ parseTraces traces = .ok rest ∧
        results = (trace.1, findings) :: rest := by
  simp only [parseTraces, List.mapM_cons, bind_eq_ok, pure, Except.pure, Except.ok.injEq]
  constructor
  · rintro ⟨_, ⟨findings, hfindings, rfl⟩, rest, hrest, rfl⟩
    exact ⟨findings, rest, hfindings, hrest, rfl⟩
  · rintro ⟨findings, rest, hfindings, hrest, rfl⟩
    exact ⟨_, ⟨findings, hfindings, rfl⟩, rest, hrest, rfl⟩

theorem Collected.foldl {traces seen : List (ℚ × Option Text)} {reports : Reports}
    {results : List (ℚ × Option TraceResult)} (h : Collected seen reports)
    (hparse : parseTraces traces = .ok results) :
    Collected (seen ++ traces) (results.foldl Reports.addTrace reports) := by
  induction traces generalizing seen reports results with
  | nil =>
      obtain rfl : results = [] := by simpa [parseTraces, pure, Except.pure] using hparse.symm
      simpa using h
  | cons trace traces ih =>
      obtain ⟨findings, rest, hfindings, hrest, rfl⟩ := parseTraces_cons.mp hparse
      rw [List.append_cons, List.foldl_cons]
      exact ih (h.addTrace hfindings) hrest

theorem collected_initial : Collected [] .initial where
  graph := graphOf_nil
  numBbs := rfl
  numEdges := rfl
  plotLength := rfl
  plot := by simp [present]

theorem collected_genReports {traces : List (ℚ × Option Text)}
    {results : List (ℚ × Option TraceResult)} (hparse : parseTraces traces = .ok results) :
    Collected traces (genReports results) := by
  simpa [genReports] using collected_initial.foldl hparse

/-! ## The order of the traces -/

theorem exists_parseTraces {traces : List (ℚ × Option Text)} :
    (∃ results, parseTraces traces = .ok results) ↔
      ∀ trace ∈ traces, ∃ findings, parseSpliceTraceFile trace.2 = .ok findings := by
  induction traces with
  | nil => exact ⟨fun _ => by simp, fun _ => ⟨[], rfl⟩⟩
  | cons trace traces ih =>
      rw [List.forall_mem_cons, ← ih]
      constructor
      · rintro ⟨results, hparse⟩
        obtain ⟨findings, rest, hfindings, hrest, -⟩ := parseTraces_cons.mp hparse
        exact ⟨⟨findings, hfindings⟩, rest, hrest⟩
      · rintro ⟨⟨findings, hfindings⟩, rest, hrest⟩
        exact ⟨_, parseTraces_cons.mpr ⟨findings, rest, hfindings, hrest, rfl⟩⟩

/-! ## Consistency -/

structure Consistent (traces : List (ℚ × Option Text)) (reports : Reports) : Prop where
  bbs : ∀ b, b ∈ reports.uniqueBbs ↔
    ∃ src dst, edgeToStr src dst ∈ reports.uniqueEdges.keys ∧ (b = src ∨ b = dst)
  callers : ∀ src dst, src ∈ reports.callers.getD dst ∅ ↔
    edgeToStr src dst ∈ reports.uniqueEdges.keys
  callersKeys : ∀ dst, dst ∈ reports.callers.keys ↔
    ∃ src, edgeToStr src dst ∈ reports.uniqueEdges.keys
  backKeys : ∀ key, key ∈ reports.globalBackEdges.keys ↔ key ∈ reports.uniqueEdges.keys
  prior : ∀ key prior, prior ∈ reports.globalBackEdges.getD key ∅ →
    prior ∈ reports.uniqueEdges.keys ∨ prior = edgeToStr exitIp exitIp
  reaches : ∀ key ∈ reports.uniqueEdges.keys, Relation.ReflTransGen
    (PriorEdge reports.globalBackEdges) key (edgeToStr exitIp exitIp)
  keys : ∀ key ∈ reports.uniqueEdges.keys, ∃ src dst, key = edgeToStr src dst ∧ dst ≠ exitIp
  lines : ∀ src dst, edgeToStr src dst ∈ reports.uniqueEdges.keys ↔
    ∃ line ∈ allLines traces, line.src = src ∧ line.dst = dst
  count : ∀ src dst, reports.uniqueEdges.getD (edgeToStr src dst) 0 =
    (traces.map fun trace => edgeCount (traceLines trace.2) src dst).sum
  traceExit : ∀ line ∈ allLines traces, line.madeUp = true →
    line.src < 0xffffffff00000000 ∧
      ∀ s : Addr2line, s.addr2func line.src = some "trace_exit".toList
  plotLength : reports.plot.length = (present traces).length
  plot : ∀ i trace, (present traces)[i]? = some trace →
    reports.plot[i]? = some (plotRow trace.1 ((present traces).take (i + 1)))
  rising : reports.plot.Pairwise fun row row' =>
    row.numBbs ≤ row'.numBbs ∧ row.numEdges ≤ row'.numEdges
  totals : reports.numBbs = reports.uniqueBbs.card ∧
    reports.numEdges = reports.uniqueEdges.keys.length
  anyOrder : ∀ traces', traces'.Perm traces → ∃ results', parseTraces traces' = .ok results' ∧
    (genReports results').numBbs = reports.numBbs ∧
    (genReports results').numEdges = reports.numEdges

theorem exists_records_of_mem_allLines {traces : List (ℚ × Option Text)} {line : SplicedLine}
    (h : line ∈ allLines traces) : ∃ records, line ∈ splicedLines none records := by
  obtain ⟨⟨timestamp, trace⟩, -, hline⟩ := List.mem_flatMap.mp h
  cases trace with
  | none => simp [traceLines] at hline
  | some text =>
      simp only [traceLines, textLines, Option.map_some, Option.getD_some] at hline
      split at hline
      case h_1 records _ => exact ⟨records, hline⟩
      case h_2 => simp at hline

theorem edgeCount_allLines (traces : List (ℚ × Option Text)) (src dst : ℤ) :
    edgeCount (allLines traces) src dst =
      (traces.map fun trace => edgeCount (traceLines trace.2) src dst).sum := by
  induction traces with
  | nil => rfl
  | cons trace traces ih =>
      rw [List.map_cons, List.sum_cons, ← ih, ← edgeCount_append]
      rfl

theorem Collected.rising {traces : List (ℚ × Option Text)} {reports : Reports}
    (h : Collected traces reports) : reports.plot.Pairwise fun row row' =>
      row.numBbs ≤ row'.numBbs ∧ row.numEdges ≤ row'.numEdges := by
  have hrow : ∀ i (hi : i < reports.plot.length), ∃ timestamp,
      reports.plot[i] = plotRow timestamp ((present traces).take (i + 1)) := by
    intro i hi
    have hi' : i < (present traces).length := h.plotLength ▸ hi
    have hplot := h.plot i _ (List.getElem?_eq_getElem hi')
    rw [List.getElem?_eq_getElem hi] at hplot
    exact ⟨_, Option.some.inj hplot⟩
  rw [List.pairwise_iff_getElem]
  intro i j hi hj hij
  obtain ⟨timestamp, hi'⟩ := hrow i hi
  obtain ⟨timestamp', hj'⟩ := hrow j hj
  have hsubset : ∀ trace ∈ (present traces).take (i + 1), trace ∈ (present traces).take (j + 1) :=
    fun trace htrace => (List.take_subset_take_left _ (by omega)) htrace
  rw [hi', hj']
  exact ⟨Finset.card_le_card (seenBbs_subset hsubset),
    Finset.card_le_card (seenEdges_subset hsubset)⟩

theorem reports_consistent (traces : List (ℚ × Option Text))
    (results : List (ℚ × Option TraceResult)) (hparse : parseTraces traces = .ok results) :
    Consistent traces (genReports results) := by
  have h := collected_genReports hparse
  have hlines : ∀ src dst, edgeToStr src dst ∈ (genReports results).uniqueEdges.keys ↔
      ∃ line ∈ allLines traces, line.src = src ∧ line.dst = dst := by
    intro src dst
    refine (h.graph.edges _).trans ?_
    simp only [edgeToStr_inj, eq_comm (a := src), eq_comm (a := dst)]
  refine ⟨fun b => ?_, fun src dst => ?_, fun dst => ?_, h.graph.backKeys, h.graph.prior,
    h.graph.reaches, fun key hkey => ?_, hlines, fun src dst => ?_, fun line hline hmadeUp => ?_,
    h.plotLength, h.plot, ?_, ⟨?_, ?_⟩, fun traces' hperm => ?_⟩
  · refine (h.graph.bbs b).trans ⟨?_, ?_⟩
    · rintro ⟨line, hline, hb⟩
      exact ⟨line.src, line.dst, (hlines _ _).mpr ⟨line, hline, rfl, rfl⟩, hb⟩
    · rintro ⟨src, dst, hkey, hb⟩
      obtain ⟨line, hline, rfl, rfl⟩ := (hlines src dst).mp hkey
      exact ⟨line, hline, hb⟩
  · exact (h.graph.callers src dst).trans (hlines src dst).symm
  · refine (h.graph.callersKeys dst).trans ⟨?_, ?_⟩
    · rintro ⟨line, hline, rfl⟩
      exact ⟨line.src, (hlines _ _).mpr ⟨line, hline, rfl, rfl⟩⟩
    · rintro ⟨src, hkey⟩
      obtain ⟨line, hline, -, rfl⟩ := (hlines src dst).mp hkey
      exact ⟨line, hline, rfl⟩
  · obtain ⟨line, hline, rfl⟩ := (h.graph.edges key).mp hkey
    obtain ⟨records, hrecords⟩ := exists_records_of_mem_allLines hline
    exact ⟨line.src, line.dst, rfl, (splicedLine_spec hrecords).1⟩
  · exact (h.graph.count src dst).trans (edgeCount_allLines traces src dst)
  · obtain ⟨records, hrecords⟩ := exists_records_of_mem_allLines hline
    obtain ⟨src, hfake⟩ := ((splicedLine_spec hrecords).2 hmadeUp).resolve_left (by simp)
    have hsrc : line.src < 0xffffffff00000000 := hfake ▸ (fakeSource_range src).2
    exact ⟨hsrc, fun s => by rw [Addr2line.addr2func, if_pos hsrc]⟩
  · exact h.rising
  · exact h.numBbs.trans (congrArg Finset.card h.graph.bbs_eq.symm)
  · rw [h.numEdges, ← h.graph.card_keys]
    exact List.toFinset_card_of_nodup (genReports results).uniqueEdges.nodup
  · obtain ⟨results', hparse'⟩ := exists_parseTraces.mpr fun trace htrace =>
      exists_parseTraces.mp ⟨results, hparse⟩ trace (hperm.mem_iff.mp htrace)
    have h' := collected_genReports hparse'
    have hedges : seenEdges traces' = seenEdges traces :=
      (seenEdges_subset fun trace htrace => hperm.mem_iff.mp htrace).antisymm
        (seenEdges_subset fun trace htrace => hperm.mem_iff.mpr htrace)
    refine ⟨results', hparse', ?_, ?_⟩
    · rw [h'.numBbs, h.numBbs, seenBbs, seenBbs, hedges]
    · rw [h'.numEdges, h.numEdges, hedges]

def sampleTraces : List (ℚ × Option Text) :=
  [(1, some "10,ffffffffffffffff\nffffffffffffffff,20,2\n20,30".toList), (2, none)]

theorem reports_consistent_sampleTraces :
    ∃ results, parseTraces sampleTraces = .ok results ∧
      Consistent sampleTraces (genReports results) := by
  have hok : (parseTraces sampleTraces).toBool = true := by decide +kernel
  cases hparse : parseTraces sampleTraces with
  | error e => simp [hparse, Except.toBool] at hok
  | ok results => exact ⟨results, rfl, reports_consistent sampleTraces results hparse⟩

end TdvfFuzz.SmatchMatch
