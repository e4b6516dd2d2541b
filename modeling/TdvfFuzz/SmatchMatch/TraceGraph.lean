import Mathlib.Algebra.BigOperators.Group.List.Basic
import Mathlib.Data.Finset.Prod
import Mathlib.Logic.Relation
import TdvfFuzz.SmatchMatch.Reports

/-!
# The graph of the traces

What a trace means is a list of spliced lines.  Blocks, edges, callers and back
edges are read off that list, for one trace and for all traces in a row.
-/

namespace TdvfFuzz.SmatchMatch

open TdvfFuzz.Foundation

/-! ## Spliced lines -/

/-- A line that is counted, and whether its source was made up. -/
structure SplicedLine where
  src : ℤ
  dst : ℤ
  num : ℤ
  madeUp : Bool

def lineFields (line : Text) : Except PyError (ℤ × ℤ × ℤ) := do
  let (src, dst, num) ← splitFields line
  let src ← int16 src
  let dst ← int16 dst
  let num ← int16 num
  return (src, dst, num)

/-- An exit is dropped, and the source it leaves pending is given to the next line. -/
def splicedLines : Option ℤ → List (ℤ × ℤ × ℤ) → List SplicedLine
  | _, [] => []
  | pending, (src, dst, num) :: rest =>
      if dst = exitIp then splicedLines (some (fakeSource src)) rest
      else ⟨pending.getD src, dst, num, pending.isSome⟩ :: splicedLines none rest

def textLines (text : Text) : List SplicedLine :=
  match (splitlines text).mapM lineFields with
  | .ok records => splicedLines none records
  | .error _ => []

def traceLines (trace : Option Text) : List SplicedLine := (trace.map textLines).getD []

def edgeCount (lines : List SplicedLine) (src dst : ℤ) : ℤ :=
  ((lines.filter fun line => line.src = src ∧ line.dst = dst).map SplicedLine.num).sum

theorem fakeSource_range (src : ℤ) :
    0 < fakeSource src ∧ fakeSource src < 0xffffffff00000000 := by
  unfold fakeSource
  omega

theorem splicedLine_spec {records : List (ℤ × ℤ × ℤ)} {pending : Option ℤ} {line : SplicedLine}
    (h : line ∈ splicedLines pending records) :
    line.dst ≠ exitIp ∧
      (line.madeUp = true → line.src ∈ pending ∨ ∃ src, line.src = fakeSource src) := by
  induction records generalizing pending with
  | nil => simp [splicedLines] at h
  | cons record records ih =>
      rw [splicedLines] at h
      split at h
      case isTrue =>
        obtain ⟨hdst, hsrc⟩ := ih h
        refine ⟨hdst, fun hmadeUp => .inr ?_⟩
        rcases hsrc hmadeUp with hfake | hfake
        · exact ⟨record.1, (Option.some.inj hfake).symm⟩
        · exact hfake
      case isFalse hdst =>
        rcases List.mem_cons.mp h with rfl | h
        · refine ⟨hdst, fun hmadeUp => .inl ?_⟩
          obtain ⟨fake, hfake⟩ := Option.isSome_iff_exists.mp hmadeUp
          simp [hfake]
        · exact (ih h).imp_right fun hsrc hmadeUp => .inr ((hsrc hmadeUp).resolve_left (by simp))

/-! ## The graph of a list of lines -/

def initialEdge : Text := edgeToStr exitIp exitIp

def PriorEdge (backEdges : Dict Text (Finset Text)) (edge prior : Text) : Prop :=
  prior ∈ backEdges.getD edge ∅

/-- The four structures hold exactly what the lines say. -/
structure GraphOf (lines : List SplicedLine) (g : TraceResult) : Prop where
  edges : ∀ key, key ∈ g.edges.keys ↔ ∃ line ∈ lines, key = edgeToStr line.src line.dst
  count : ∀ src dst, g.edges.getD (edgeToStr src dst) 0 = edgeCount lines src dst
  bbs : ∀ b, b ∈ g.bbs ↔ ∃ line ∈ lines, b = line.src ∨ b = line.dst
  callers : ∀ src dst, src ∈ g.callers.getD dst ∅ ↔
    ∃ line ∈ lines, line.src = src ∧ line.dst = dst
  callersKeys : ∀ dst, dst ∈ g.callers.keys ↔ ∃ line ∈ lines, line.dst = dst
  backKeys : ∀ key, key ∈ g.backEdges.keys ↔ key ∈ g.edges.keys
  prior : ∀ key prior, PriorEdge g.backEdges key prior →
    prior ∈ g.edges.keys ∨ prior = initialEdge
  reaches : ∀ key ∈ g.edges.keys, Relation.ReflTransGen (PriorEdge g.backEdges) key initialEdge

theorem edgeToStr_inj {src dst src' dst' : ℤ} :
    edgeToStr src dst = edgeToStr src' dst' ↔ src = src' ∧ dst = dst' :=
  ⟨edgeToStr_injective, by rintro ⟨rfl, rfl⟩; rfl⟩

theorem edgeCount_append (lines lines' : List SplicedLine) (src dst : ℤ) :
    edgeCount (lines ++ lines') src dst = edgeCount lines src dst + edgeCount lines' src dst := by
  simp [edgeCount]

theorem graphOf_nil : GraphOf [] SpliceState.initial.result where
  edges := by simp [SpliceState.result, SpliceState.initial]
  count := by simp [SpliceState.result, SpliceState.initial, edgeCount]
  bbs := by simp [SpliceState.result, SpliceState.initial]
  callers := by simp [SpliceState.result, SpliceState.initial]
  callersKeys := by simp [SpliceState.result, SpliceState.initial]
  backKeys := by simp [SpliceState.result, SpliceState.initial]
  prior := by simp [PriorEdge, SpliceState.result, SpliceState.initial]
  reaches := by simp [SpliceState.result, SpliceState.initial]

/-! ## One line more -/

def addLine (g : TraceResult) (lastEdge : Text) (line : SplicedLine) : TraceResult :=
  let edgeStr := edgeToStr line.src line.dst
  { edges := g.edges.set edgeStr (g.edges.getD edgeStr 0 + line.num)
    backEdges := g.backEdges.set edgeStr (insert lastEdge (g.backEdges.getD edgeStr ∅))
    callers := g.callers.set line.dst (insert line.src (g.callers.getD line.dst ∅))
    bbs := g.bbs ∪ {line.src, line.dst} }

section

variable {lines : List SplicedLine} {g : TraceResult} {lastEdge : Text}

theorem priorEdge_addLine {line : SplicedLine} {key prior : Text} :
    PriorEdge (addLine g lastEdge line).backEdges key prior ↔
      key = edgeToStr line.src line.dst ∧ prior = lastEdge ∨ PriorEdge g.backEdges key prior := by
  simp only [PriorEdge, addLine, Dict.getD_set]
  by_cases hkey : key = edgeToStr line.src line.dst
  · simp [hkey]
  · simp [hkey]

theorem GraphOf.append_line (h : GraphOf lines g)
    (hlast : lastEdge ∈ g.edges.keys ∨ lastEdge = initialEdge) (line : SplicedLine) :
    GraphOf (lines ++ [line]) (addLine g lastEdge line) := by
  have hkeys : ∀ key, key ∈ (addLine g lastEdge line).edges.keys ↔
      key = edgeToStr line.src line.dst ∨ key ∈ g.edges.keys := by
    simp [addLine]
  have hmono : ∀ key prior, PriorEdge g.backEdges key prior →
      PriorEdge (addLine g lastEdge line).backEdges key prior :=
    fun key prior hprior => priorEdge_addLine.mpr (.inr hprior)
  have hreaches : ∀ key ∈ g.edges.keys,
      Relation.ReflTransGen (PriorEdge (addLine g lastEdge line).backEdges) key
        initialEdge := fun key hkey => Relation.ReflTransGen.mono hmono _ _ (h.reaches key hkey)
  refine ⟨fun key => ?_, fun src dst => ?_, fun b => ?_, fun src dst => ?_, fun dst => ?_,
    fun key => ?_, fun key prior hprior => ?_, fun key hkey => ?_⟩
  · simp [hkeys, h.edges, or_comm]
  · simp only [addLine, Dict.getD_set, edgeToStr_inj, edgeCount_append, ← h.count]
    by_cases hline : src = line.src ∧ dst = line.dst
    · obtain ⟨rfl, rfl⟩ := hline
      simp [edgeCount]
    · have hother : ¬ (line.src = src ∧ line.dst = dst) := fun hsame =>
        hline ⟨hsame.1.symm, hsame.2.symm⟩
      simp [hline, edgeCount, hother]
  · simp only [addLine, Finset.mem_union, Finset.mem_insert, Finset.mem_singleton, h.bbs,
      List.mem_append, List.mem_singleton, or_and_right, exists_or, exists_eq_left]
  · simp only [addLine, Dict.getD_set]
    by_cases hdst : dst = line.dst
    · subst hdst
      simp [h.callers, or_comm, eq_comm]
    · simp [hdst, Ne.symm hdst, h.callers]
  · simp [addLine, h.callersKeys, or_comm, eq_comm]
  · simp [addLine, h.backKeys]
  · rw [hkeys]
    rcases priorEdge_addLine.mp hprior with ⟨-, rfl⟩ | hprior
    · exact hlast.imp_left .inr
    · exact (h.prior key prior hprior).imp_left .inr
  · rcases (hkeys key).mp hkey with rfl | hkey
    · -- the new edge leads to the last one, which leads to the start
      refine .head (priorEdge_addLine.mpr (.inl ⟨rfl, rfl⟩)) ?_
      rcases hlast with hlast | rfl
      · exact hreaches _ hlast
      · exact .refl
    · exact hreaches key hkey

/-! ## One trace -/

theorem spliceEdge_cases {s next : SpliceState} {src dst num : ℤ}
    (h : s.spliceEdge src dst num = .ok next) :
    (dst = exitIp ∧ s.prevIp = 0 ∧ next = { s with prevIp := fakeSource src }) ∨
    (dst ≠ exitIp ∧ s.prevIp = 0 ∧ next = s.addEdge src dst num) ∨
    (dst ≠ exitIp ∧ s.prevIp ≠ 0 ∧
      next = { s with
        spliceIps := doSpliceLocation s.spliceIps s.prevIp
        prevIp := 0 }.addEdge s.prevIp dst num) := by
  unfold SpliceState.spliceEdge at h
  split at h
  case isTrue hexit =>
    split at h
    case isTrue hprev => exact .inl ⟨hexit, hprev, (Except.ok.inj h).symm⟩
    case isFalse => simp at h
  case isFalse hreal =>
    split at h
    case isTrue hprev => exact .inr (.inl ⟨hreal, hprev, (Except.ok.inj h).symm⟩)
    case isFalse hprev =>
      split at h
      case isTrue => exact .inr (.inr ⟨hreal, hprev, (Except.ok.inj h).symm⟩)
      case isFalse => simp at h

theorem graphOf_foldlM {records : List (ℤ × ℤ × ℤ)} {s s' : SpliceState} {pending : Option ℤ}
    (h : GraphOf lines s.result)
    (hlast : s.lastEdge ∈ s.edges.keys ∨ s.lastEdge = initialEdge)
    (hpending : s.prevIp = pending.getD 0) (hne : ∀ fake ∈ pending, fake ≠ 0)
    (hfold : records.foldlM (fun s record => s.spliceEdge record.1 record.2.1 record.2.2) s =
      .ok s') :
    GraphOf (lines ++ splicedLines pending records) s'.result := by
  induction records generalizing s lines pending with
  | nil =>
      obtain rfl : s = s' := by simpa [pure, Except.pure] using hfold
      simpa [splicedLines] using h
  | cons record records ih =>
      obtain ⟨src, dst, num⟩ := record
      rw [List.foldlM_cons, bind_eq_ok] at hfold
      obtain ⟨next, hstep, hrest⟩ := hfold
      rw [splicedLines]
      rcases spliceEdge_cases hstep with ⟨hexit, -, rfl⟩ | ⟨hreal, hprev, rfl⟩ | ⟨hreal, hprev, rfl⟩
      · -- the edge into the exit token leaves a source pending
        rw [if_pos hexit]
        have hfake : ∀ fake ∈ some (fakeSource src), fake ≠ 0 := by
          simpa using (fakeSource_range src).1.ne'
        exact ih (s := { s with prevIp := fakeSource src }) h hlast rfl hfake hrest
      · obtain rfl : pending = none := by
          cases pending with
          | none => rfl
          | some fake => exact absurd (hpending.symm.trans hprev) (hne fake rfl)
        have hnone : ∀ fake ∈ (none : Option ℤ), fake ≠ 0 := by simp
        have hgraph := h.append_line hlast ⟨src, dst, num, false⟩
        rw [if_neg hreal, List.append_cons]
        exact ih (s := s.addEdge src dst num) hgraph (.inl (by simp [SpliceState.addEdge])) hprev
          hnone hrest
      · obtain ⟨fake, rfl⟩ : ∃ fake, pending = some fake := by
          cases pending with
          | none => exact absurd hpending hprev
          | some fake => exact ⟨fake, rfl⟩
        have hnone : ∀ fake ∈ (none : Option ℤ), fake ≠ 0 := by simp
        have hgraph := h.append_line hlast ⟨s.prevIp, dst, num, true⟩
        have hfake : fake = s.prevIp := hpending.symm
        rw [if_neg hreal, List.append_cons, hfake]
        exact ih (s := SpliceState.addEdge { s with
          spliceIps := doSpliceLocation s.spliceIps s.prevIp, prevIp := 0 } s.prevIp dst num)
          hgraph (.inl (by simp [SpliceState.addEdge])) rfl hnone hrest

theorem spliceLine_eq (s : SpliceState) (line : Text) : spliceLine s line =
    lineFields line >>= fun record => s.spliceEdge record.1 record.2.1 record.2.2 := by
  simp [spliceLine, lineFields]

theorem mapM_of_foldlM {texts : List Text} {s s' : SpliceState}
    (h : texts.foldlM spliceLine s = .ok s') :
    ∃ records, texts.mapM lineFields = .ok records ∧
      records.foldlM (fun s record => s.spliceEdge record.1 record.2.1 record.2.2) s = .ok s' := by
  induction texts generalizing s with
  | nil => exact ⟨[], rfl, h⟩
  | cons text texts ih =>
      rw [List.foldlM_cons, bind_eq_ok] at h
      obtain ⟨next, hstep, hrest⟩ := h
      rw [spliceLine_eq, bind_eq_ok] at hstep
      obtain ⟨record, hrecord, hedge⟩ := hstep
      obtain ⟨records, hrecords, hfold⟩ := ih hrest
      refine ⟨record :: records, ?_, ?_⟩
      · simp [List.mapM_cons, hrecord, hrecords]
      · simp [hedge, hfold]

theorem graphOf_parse {trace : Option Text} {findings : Option TraceResult}
    (h : parseSpliceTraceFile trace = .ok findings) :
    trace = none ∧ findings = none ∨
      trace.isSome = true ∧
        ∃ result, findings = some result ∧ GraphOf (traceLines trace) result := by
  cases trace with
  | none => exact .inl ⟨rfl, (Except.ok.inj h).symm⟩
  | some text =>
      rw [parseSpliceTraceFile, bind_eq_ok] at h
      obtain ⟨s, hfold, hresult⟩ := h
      obtain ⟨records, hrecords, hfold⟩ := mapM_of_foldlM hfold
      have hnone : ∀ fake ∈ (none : Option ℤ), fake ≠ 0 := by simp
      have hgraph := graphOf_foldlM graphOf_nil (.inr rfl) rfl hnone hfold
      refine .inr ⟨rfl, s.result, (Except.ok.inj hresult).symm, ?_⟩
      simpa [traceLines, textLines, hrecords] using hgraph

end

/-! ## All traces -/

def mergeGraph (g g' : TraceResult) : TraceResult where
  bbs := g.bbs ∪ g'.bbs
  edges := g.edges.merge (· + ·) 0 g'.edges
  callers := g.callers.merge (· ∪ ·) ∅ g'.callers
  backEdges := g.backEdges.merge (· ∪ ·) ∅ g'.backEdges

theorem GraphOf.append {lines lines' : List SplicedLine} {g g' : TraceResult}
    (h : GraphOf lines g) (h' : GraphOf lines' g') :
    GraphOf (lines ++ lines') (mergeGraph g g') := by
  have hprior : ∀ key prior, PriorEdge (mergeGraph g g').backEdges key prior ↔
      PriorEdge g.backEdges key prior ∨ PriorEdge g'.backEdges key prior := by
    simp [PriorEdge, mergeGraph, Dict.getD_merge]
  have hkeys : ∀ key, key ∈ (mergeGraph g g').edges.keys ↔
      key ∈ g.edges.keys ∨ key ∈ g'.edges.keys := by
    simp [mergeGraph, Dict.mem_keys_merge]
  refine ⟨fun key => ?_, fun src dst => ?_, fun b => ?_, fun src dst => ?_, fun dst => ?_,
    fun key => ?_, fun key prior hmem => ?_, fun key hkey => ?_⟩
  · simp [hkeys, h.edges, h'.edges, or_and_right, exists_or]
  · simp [mergeGraph, Dict.getD_merge, edgeCount_append, h.count, h'.count]
  · simp [mergeGraph, h.bbs, h'.bbs, or_and_right, exists_or]
  · simp [mergeGraph, Dict.getD_merge, h.callers, h'.callers, or_and_right, exists_or]
  · simp [mergeGraph, Dict.mem_keys_merge, h.callersKeys, h'.callersKeys, or_and_right, exists_or]
  · simp [mergeGraph, Dict.mem_keys_merge, h.backKeys, h'.backKeys]
  · rw [hkeys]
    rcases (hprior key prior).mp hmem with hmem | hmem
    · exact (h.prior key prior hmem).imp_left .inl
    · exact (h'.prior key prior hmem).imp_left .inr
  · rcases (hkeys key).mp hkey with hkey | hkey
    · exact Relation.ReflTransGen.mono (fun a b hab => (hprior a b).mpr (.inl hab)) _ _
        (h.reaches key hkey)
    · exact Relation.ReflTransGen.mono (fun a b hab => (hprior a b).mpr (.inr hab)) _ _
        (h'.reaches key hkey)

end TdvfFuzz.SmatchMatch
