import TdvfFuzz.Foundation.LineTools
import TdvfFuzz.SmatchMatch.Consistency

/-!
# `gen_addr2line.sh`

The script cuts the two blocks out of every line of the edge list, sorts them
and has `eu-addr2line` resolve each.  A listing that is there is not made again.
-/

namespace TdvfFuzz.SmatchMatch

open TdvfFuzz.Foundation
open TdvfFuzz.Smatcher (Contents FileSystem)

/-! ## The edits -/

/-- `s/\,/\n/` -/
def breakComma : Text → Text
  | [] => []
  | c :: s => if c = ',' then '\n' :: s else c :: breakComma s

/-- `s/\,.*$//` -/
def cutComma (s : Text) : Text := s.takeWhile (· ≠ ',')

def blockEdit (line : Text) : Text := cutComma (breakComma line)

/-- The block list of one trace, in the order of the trace. -/
def traceBlocks (edges : Text) : Text := sed blockEdit edges

/-- The block list of a working directory. -/
def uniqueBlocks (c : Collation) (edges : Text) : Text :=
  terminated '\n' (c.sortUniq (fileLines (sed blockEdit edges)))

/-! ## Lines of an edge list -/

structure EdgeLine where
  src : Text
  dst : Text
  num : Option Text
  src_chars : ∀ c ∈ src, c ≠ ',' ∧ c ≠ '\n'
  dst_chars : ∀ c ∈ dst, c ≠ ',' ∧ c ≠ '\n'
  num_chars : ∀ n ∈ num, '\n' ∉ n

namespace EdgeLine

/-- `src,dst,num`, or `src,dst` in a trace. -/
def text (line : EdgeLine) : Text :=
  line.src ++ ',' :: (line.dst ++ line.num.elim [] (',' :: ·))

def blocks (line : EdgeLine) : List Text := [line.src, line.dst]

theorem newline_not_mem (line : EdgeLine) : '\n' ∉ line.text := by
  have hsrc : '\n' ∉ line.src := fun h => (line.src_chars _ h).2 rfl
  have hdst : '\n' ∉ line.dst := fun h => (line.dst_chars _ h).2 rfl
  have hnum := line.num_chars
  cases hcount : line.num <;> simp_all [text]

theorem breakComma_append {first : Text} (rest : Text) (h : ',' ∉ first) :
    breakComma (first ++ ',' :: rest) = first ++ '\n' :: rest := by
  induction first with
  | nil => rfl
  | cons c first ih =>
      simp only [List.mem_cons, not_or] at h
      rw [List.cons_append, breakComma, if_neg (Ne.symm h.1), ih h.2]
      rfl

theorem blockEdit_text (line : EdgeLine) :
    blockEdit line.text = line.src ++ '\n' :: line.dst := by
  have hkept : ∀ c ∈ line.src ++ '\n' :: line.dst, c ≠ ',' := by
    simp only [List.forall_mem_append, List.forall_mem_cons]
    exact ⟨fun c hc => (line.src_chars c hc).1, by decide, fun c hc => (line.dst_chars c hc).1⟩
  rw [blockEdit, text, breakComma_append _ fun h => (line.src_chars _ h).1 rfl, cutComma]
  cases hnum : line.num with
  | none => simpa using hkept
  | some num =>
      have hcut : line.src ++ '\n' :: (line.dst ++ ',' :: num) =
          (line.src ++ '\n' :: line.dst) ++ ',' :: num := by simp
      rw [Option.elim_some, hcut, List.takeWhile_append_of_pos (by simpa using hkept)]
      simp

end EdgeLine

theorem traceBlocks_lines (lines : List EdgeLine) :
    traceBlocks (terminated '\n' (lines.map EdgeLine.text)) =
      terminated '\n' (lines.flatMap EdgeLine.blocks) := by
  rw [traceBlocks, sed_terminated _ (by simpa using fun line _ => line.newline_not_mem)]
  induction lines with
  | nil => rfl
  | cons line lines ih =>
      simp only [terminated, List.map_cons, List.flatMap_cons] at ih ⊢
      rw [ih, line.blockEdit_text]
      simp [EdgeLine.blocks]

theorem fileLines_traceBlocks (lines : List EdgeLine) :
    fileLines (traceBlocks (terminated '\n' (lines.map EdgeLine.text))) =
      lines.flatMap EdgeLine.blocks := by
  rw [traceBlocks_lines, fileLines_terminated]
  simp only [EdgeLine.blocks, List.mem_flatMap, List.mem_cons, List.not_mem_nil, or_false,
    forall_exists_index, and_imp]
  rintro block line - (rfl | rfl) h
  · exact (line.src_chars _ h).2 rfl
  · exact (line.dst_chars _ h).2 rfl

theorem uniqueBlocks_lines (c : Collation) (lines : List EdgeLine) :
    uniqueBlocks c (terminated '\n' (lines.map EdgeLine.text)) =
      terminated '\n' (c.sortUniq (lines.flatMap EdgeLine.blocks)) := by
  rw [uniqueBlocks, ← traceBlocks, fileLines_traceBlocks]

/-! ## The edge list of the reports -/

theorem not_mem_of_isDigit16 {n : ℕ} {c : Char} (hc : hexDigit c = none) :
    c ∉ Nat.toDigits 16 n :=
  not_mem_of_hexValue (hexValue_toDigits n) hc

theorem format016x_chars (n : ℤ) : ∀ c ∈ format016x n, c ≠ ',' ∧ c ≠ '\n' := by
  have hpad : ∀ width, '\n' ∉ (Nat.toDigits 16 n.natAbs).leftpad width '0' := fun width =>
    not_mem_of_hexValue (hexValue_format width n.natAbs) (by decide)
  intro c hc
  refine ⟨?_, ?_⟩
  · rintro rfl
    exact comma_not_mem_format016x n hc
  · rintro rfl
    unfold format016x at hc
    split at hc
    · exact hpad 15 (by simpa using hc)
    · exact hpad 16 hc

theorem newline_not_mem_formatX (n : ℤ) : '\n' ∉ formatX n := by
  have hdigits : '\n' ∉ Nat.toDigits 16 n.natAbs := not_mem_of_isDigit16 (by decide)
  unfold formatX
  split
  · simpa using hdigits
  · exact hdigits

def edgeLine (src dst num : ℤ) : EdgeLine where
  src := format016x src
  dst := format016x dst
  num := some (formatX num)
  src_chars := format016x_chars src
  dst_chars := format016x_chars dst
  num_chars := by simpa using newline_not_mem_formatX num

theorem edgeLine_text (src dst num : ℤ) :
    (edgeLine src dst num).text = edgeToStr src dst ++ ',' :: formatX num := by
  simp [EdgeLine.text, edgeLine, edgeToStr]

/-- The written list has one line for each pair of blocks in a row. -/
theorem edgesUniq_lines {lines : List SplicedLine} {reports : Reports}
    (h : GraphOf lines reports.graph) :
    ∃ edges : List (ℤ × ℤ × ℤ),
      reports.edgesUniq =
        terminated '\n' ((edges.map fun e => edgeLine e.1 e.2.1 e.2.2).map EdgeLine.text) ∧
      ∀ src dst, (∃ num, (src, dst, num) ∈ edges) ↔
        ∃ line ∈ lines, line.src = src ∧ line.dst = dst := by
  have hkeys : ∀ entry ∈ reports.uniqueEdges.entries, ∃ src dst,
      entry.1 = edgeToStr src dst := by
    intro entry hentry
    obtain ⟨line, -, hline⟩ := (h.edges entry.1).mp (List.mem_map_of_mem hentry)
    exact ⟨line.src, line.dst, hline⟩
  have hedges : ∀ src dst, (∃ num, (edgeToStr src dst, num) ∈ reports.uniqueEdges.entries) ↔
      ∃ line ∈ lines, line.src = src ∧ line.dst = dst := by
    intro src dst
    have hkey := h.edges (edgeToStr src dst)
    simp only [edgeToStr_inj, eq_comm (a := src), eq_comm (a := dst)] at hkey
    rw [← hkey, Reports.graph, Dict.keys, List.mem_map]
    simp
  simp only [← hedges, Reports.edgesUniq]
  clear hedges
  generalize reports.uniqueEdges.entries = entries at hkeys
  induction entries with
  | nil => exact ⟨[], rfl, by simp⟩
  | cons entry entries ih =>
      obtain ⟨⟨src, dst, hkey⟩, hrest⟩ := List.forall_mem_cons.mp hkeys
      obtain ⟨edges, htext, hmem⟩ := ih hrest
      refine ⟨(src, dst, entry.2) :: edges, ?_, fun src' dst' => ?_⟩
      · rw [List.flatMap_cons, htext, hkey]
        simp [terminated, edgeLine_text]
      · simp only [List.mem_cons, exists_or, hmem, Prod.ext_iff, hkey, edgeToStr_inj]
        simp

/-! ## Blocks of the traces -/

theorem format016x_injective : Function.Injective format016x := fun m n h => by
  have := int16_format016x m
  rw [h, int16_format016x] at this
  exact (Except.ok.inj this).symm

/-- The block is an end of an edge in some trace. -/
def Executed (traces : List (ℚ × Option Text)) (b : ℤ) : Prop :=
  ∃ line ∈ allLines traces, b = line.src ∨ b = line.dst

structure IsBlockList (c : Collation) (traces : List (ℚ × Option Text)) (reports : Reports)
    (blocks : List Text) : Prop where
  exact : ∀ x, x ∈ blocks ↔ ∃ b, Executed traces b ∧ x = format016x b
  rising : blocks.Pairwise fun x y => c.le x y ∧ x ≠ y
  total : blocks.length = reports.numBbs
  lastRow : ∀ row ∈ reports.plot.getLast?, row.numBbs = blocks.length

theorem Collected.lastRow {traces : List (ℚ × Option Text)} {reports : Reports}
    (h : Collected traces reports) :
    ∀ row ∈ reports.plot.getLast?, row.numBbs = reports.numBbs := by
  intro row hrow
  rw [List.getLast?_eq_getElem?] at hrow
  have hlength := (List.getElem?_eq_some_iff.mp hrow).1
  have hpresent : reports.plot.length - 1 < (present traces).length := h.plotLength ▸ hlength
  have hplot := h.plot _ _ (List.getElem?_eq_getElem hpresent)
  rw [hrow, List.take_of_length_le (by rw [← h.plotLength]; omega)] at hplot
  rw [Option.some.inj hplot, plotRow, seenBbs_present, h.numBbs]

theorem Collected.executed_iff {traces : List (ℚ × Option Text)} {reports : Reports}
    (h : Collected traces reports) {b : ℤ} : Executed traces b ↔ b ∈ reports.uniqueBbs :=
  (h.graph.bbs b).symm

theorem Collected.length_blocks {traces : List (ℚ × Option Text)} {reports : Reports}
    (h : Collected traces reports) {blocks : List Text} (hnodup : blocks.Nodup)
    (hexact : ∀ x, x ∈ blocks ↔ ∃ b, Executed traces b ∧ x = format016x b) :
    blocks.length = reports.numBbs := by
  have himage : blocks.toFinset = reports.uniqueBbs.image format016x := by
    ext x
    simp [hexact, h.executed_iff, eq_comm]
  rw [← List.toFinset_card_of_nodup hnodup, himage,
    Finset.card_image_of_injective _ format016x_injective, h.numBbs]
  exact congrArg Finset.card h.graph.bbs_eq

/-- The lines of the block list are the blocks of the traces, each once. -/
theorem Collected.isBlockList (c : Collation) {traces : List (ℚ × Option Text)}
    {reports : Reports} (h : Collected traces reports) :
    ∃ blocks, uniqueBlocks c reports.edgesUniq = terminated '\n' blocks ∧
      IsBlockList c traces reports blocks := by
  obtain ⟨edges, htext, hmem⟩ := edgesUniq_lines h.graph
  have hblocks : ∀ x, x ∈ (edges.map fun e => edgeLine e.1 e.2.1 e.2.2).flatMap EdgeLine.blocks ↔
      ∃ b, Executed traces b ∧ x = format016x b := by
    intro x
    simp only [List.mem_flatMap, List.mem_map, exists_exists_and_eq_and, EdgeLine.blocks,
      edgeLine, List.mem_cons, List.not_mem_nil, or_false]
    constructor
    · rintro ⟨⟨src, dst, num⟩, hedge, hx⟩
      obtain ⟨line, hline, rfl, rfl⟩ := (hmem src dst).mp ⟨num, hedge⟩
      rcases hx with rfl | rfl
      · exact ⟨line.src, ⟨line, hline, .inl rfl⟩, rfl⟩
      · exact ⟨line.dst, ⟨line, hline, .inr rfl⟩, rfl⟩
    · rintro ⟨b, ⟨line, hline, hb⟩, rfl⟩
      obtain ⟨num, hedge⟩ := (hmem line.src line.dst).mpr ⟨line, hline, rfl, rfl⟩
      exact ⟨_, hedge, hb.imp (congrArg format016x) (congrArg format016x)⟩
  have hexact : ∀ x, x ∈ c.sortUniq ((edges.map fun e => edgeLine e.1 e.2.1 e.2.2).flatMap
      EdgeLine.blocks) ↔ ∃ b, Executed traces b ∧ x = format016x b :=
    fun x => c.mem_sortUniq.trans (hblocks x)
  have htotal := h.length_blocks (c.nodup_sortUniq _) hexact
  refine ⟨_, by rw [htext, uniqueBlocks_lines], hexact, c.pairwise_sortUniq _, htotal, ?_⟩
  exact fun row hrow => (h.lastRow row hrow).trans htotal.symm

theorem IsBlockList.unique {c : Collation} {traces traces' : List (ℚ × Option Text)}
    {reports reports' : Reports} {blocks blocks' : List Text}
    (h : IsBlockList c traces reports blocks) (h' : IsBlockList c traces' reports' blocks')
    (hperm : traces'.Perm traces) : blocks' = blocks := by
  have hexecuted : ∀ b, Executed traces' b ↔ Executed traces b := fun b => by
    simp only [Executed, allLines, List.mem_flatMap, hperm.mem_iff]
  have hmem : blocks'.Perm blocks :=
    (List.perm_ext_iff_of_nodup (h'.rising.imp And.right) (h.rising.imp And.right)).mpr
      fun x => by rw [h.exact, h'.exact]; simp only [hexecuted]
  exact hmem.eq_of_pairwise (fun x y _ _ hxy hyx => c.antisymm x y hxy.1 hyx.1) h'.rising h.rising

/--
The block list of the traces has each executed block once, as many as the last
row of the plot says, and does not depend on the order of the traces.
-/
theorem block_list_exact (c : Collation) (traces : List (ℚ × Option Text))
    (results : List (ℚ × Option TraceResult)) (hparse : parseTraces traces = .ok results) :
    ∃ blocks, uniqueBlocks c (genReports results).edgesUniq = terminated '\n' blocks ∧
      IsBlockList c traces (genReports results) blocks ∧
      ∀ traces' results', traces'.Perm traces → parseTraces traces' = .ok results' →
        uniqueBlocks c (genReports results').edgesUniq = terminated '\n' blocks := by
  obtain ⟨blocks, htext, hblocks⟩ := (collected_genReports hparse).isBlockList c
  refine ⟨blocks, htext, hblocks, fun traces' results' hperm hparse' => ?_⟩
  obtain ⟨blocks', htext', hblocks'⟩ := (collected_genReports hparse').isBlockList c
  rw [htext', hblocks.unique hblocks' hperm]

theorem block_list_exact_sampleTraces :
    ∃ results, parseTraces sampleTraces = .ok results ∧
      ∃ blocks, uniqueBlocks .codePoints (genReports results).edgesUniq = terminated '\n' blocks ∧
        IsBlockList .codePoints sampleTraces (genReports results) blocks ∧
        ∀ traces' results', traces'.Perm sampleTraces → parseTraces traces' = .ok results' →
          uniqueBlocks .codePoints (genReports results').edgesUniq = terminated '\n' blocks := by
  have hok : (parseTraces sampleTraces).toBool = true := by decide +kernel
  cases hparse : parseTraces sampleTraces with
  | error e => simp [hparse, Except.toBool] at hok
  | ok results => exact ⟨results, rfl, block_list_exact .codePoints sampleTraces results hparse⟩

end TdvfFuzz.SmatchMatch
