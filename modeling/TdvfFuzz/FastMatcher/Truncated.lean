import Mathlib.Data.List.Chain
import TdvfFuzz.FastMatcher.Splice

/-!
# Traces that break off

A trace that was written in part is a prefix of its text.  The line at which it
breaks off ends the iteration, panics, or is read as an edge to another address.
-/

namespace TdvfFuzz.FastMatcher

open TdvfFuzz.Foundation

/-- The last line of a text, without what the iterator trims. -/
def cutLine (text : Text) : Text := trimEnd (text.rtakeWhile (· != '\n'))

/-- Where the code goes on behind a run of exits. -/
def landing (edges : List Edge) : Option Node := (edges.map Prod.snd).find? (· != ptToken)

/--
Behind a comma the digits that are left are as good as all of them.  Otherwise
no exit is left open.
-/
def Tolerated (edges : List Edge) (text : Text) : Prop :=
  match (cutLine text).splitOn ',' with
  | [_, digits] =>
      digits ≠ [] ∧ hexValue 0 digits = landing (edges.drop (text.count '\n'))
  | _ => ∀ e ∈ (edges.take (text.count '\n')).getLast?, e.2 ≠ ptToken

/-! ## One line in front of others -/

section

variable {line : Text} {e : Edge} {rest : Lines}

theorem traceEdges_cons_of_ne (hline : parseLine line = .edge e) (hne : e.2 ≠ ptToken) :
    traceEdges (some line :: rest) = (e :: (traceEdges rest).1, (traceEdges rest).2) := by
  rw [traceEdges_eq, next, hline]
  simp [hne]

theorem traceEdges_cons_of_exit (hline : parseLine line = .edge e) (hexit : e.2 = ptToken)
    {f : Edge} {edges : List Edge} {panicked : Bool}
    (hrest : traceEdges rest = (f :: edges, panicked)) (hf : f.1 = ptToken) :
    traceEdges (some line :: rest) = ((e.1, f.2) :: edges, panicked) := by
  rw [traceEdges_eq] at hrest
  rw [traceEdges_eq, next, hline]
  cases hnext : next rest with
  | done rest' => simp [hnext] at hrest
  | panicked => simp [hnext] at hrest
  | edge f' rest' =>
      simp only [hnext, Prod.mk.injEq, List.cons.injEq] at hrest
      obtain ⟨⟨rfl, hedges⟩, hpanicked⟩ := hrest
      simp [hexit, hf, hedges, hpanicked]

theorem traceEdges_cons_of_done (hline : parseLine line = .edge e) (hexit : e.2 = ptToken)
    (hdone : next rest = .done []) : traceEdges (some line :: rest) = ([e], false) := by
  have hend : traceEdges [] = ([], false) := by rw [traceEdges_eq, next]
  have hnext : next (some line :: rest) = .edge e [] := by
    obtain ⟨src, dst⟩ := e
    obtain rfl : dst = ptToken := hexit
    rw [next, hline]
    simp [hdone]
  rw [traceEdges_eq, hnext]
  simp only [hend]

theorem traceEdges_cons_panicked (hline : parseLine line = .edge e)
    (hrest : (traceEdges rest).2 = true) : (traceEdges (some line :: rest)).2 = true := by
  by_cases hexit : e.2 = ptToken
  · rw [traceEdges_eq] at hrest
    rw [traceEdges_eq, next, hline]
    cases hnext : next rest with
    | done rest' => simp [hnext] at hrest
    | panicked => simp [hexit]
    | edge f rest' =>
        simp only [hnext] at hrest
        by_cases hf : f.1 = ptToken <;> simp [hexit, hf, hrest]
  · rw [traceEdges_cons_of_ne hline hexit]
    exact hrest

end

/-! ## Spliced prefixes -/

/-- Behind an edge into the exit token the code comes back out of it. -/
abbrev Reenter (e following : Edge) : Prop := e.2 = ptToken → following.1 = ptToken

theorem ExitsFollowed.isChain {edges : List Edge}
    (h : ExitsFollowed (fun e => e.1 = ptToken) edges) : edges.IsChain Reenter := by
  induction edges with
  | nil => exact .nil
  | cons e rest ih =>
      cases rest with
      | nil => exact .singleton e
      | cons following rest => exact .cons_cons h.1 (ih h.2)

theorem ExitsFollowed.tail {P : Edge → Prop} {e : Edge} {rest : List Edge}
    (h : ExitsFollowed P (e :: rest)) : ExitsFollowed P rest := by
  cases rest with
  | nil => trivial
  | cons following rest => exact h.2

theorem getLast?_splice (edges : List Edge) :
    (splice edges).getLast?.map (·.edge.2) = edges.getLast?.map Prod.snd := by
  induction edges with
  | nil => rfl
  | cons e rest ih =>
      cases rest with
      | nil => by_cases hexit : e.2 = ptToken <;> simp [splice, hexit]
      | cons following rest =>
          obtain ⟨x, tail, hsplice, -⟩ := exists_splice_cons following rest
          rw [hsplice] at ih
          rw [List.getLast?_cons_cons, ← ih, splice, hsplice]
          by_cases hexit : e.2 = ptToken
          · cases tail <;> simp [hexit]
          · simp [hexit]

theorem splice_append {front : List Edge} (edges : List Edge)
    (h : ∀ e ∈ front.getLast?, e.2 ≠ ptToken) :
    splice (front ++ edges) = splice front ++ splice edges := by
  induction front with
  | nil => rfl
  | cons e front ih =>
      cases front with
      | nil =>
          have hdst : e.2 ≠ ptToken := h e rfl
          simp [splice_of_dst_ne _ hdst, splice]
      | cons following front =>
          rw [List.getLast?_cons_cons] at h
          have hrest := ih h
          obtain ⟨x, tail, hsplice, -⟩ := exists_splice_cons following front
          rw [List.cons_append, splice, hrest, hsplice, splice.eq_2 e, hsplice]
          by_cases hexit : e.2 = ptToken <;> simp [hexit]

theorem splice_cons_landing {e : Edge} {rest : List Edge}
    (h : ExitsFollowed (fun e => e.1 = ptToken) (e :: rest)) :
    ∃ x tail, splice (e :: rest) = x :: tail ∧ x.edge.1 = e.1 ∧
      landing (e :: rest) = some x.edge.2 := by
  induction rest generalizing e with
  | nil =>
      have hdst : e.2 ≠ ptToken := h
      exact ⟨⟨e, false⟩, [], splice_of_dst_ne [] hdst, rfl, by simp [landing, hdst]⟩
  | cons following rest ih =>
      by_cases hexit : e.2 = ptToken
      · obtain ⟨x, tail, hsplice, -, hland⟩ := ih h.2
        refine ⟨⟨(e.1, x.edge.2), true⟩, tail, by rw [splice, if_pos hexit, hsplice], rfl, ?_⟩
        simpa [landing, hexit] using hland
      · exact ⟨⟨e, false⟩, _, splice_of_dst_ne _ hexit, rfl, by simp [landing, hexit]⟩

/-- No yielded edge may be left on the way out. -/
theorem splice_prefix_iff {front rest : List Edge}
    (h : ExitsFollowed (fun e => e.1 = ptToken) (front ++ rest)) :
    (splice front).map Spliced.edge <+: (splice (front ++ rest)).map Spliced.edge ↔
      ∀ e ∈ front.getLast?, e.2 ≠ ptToken := by
  constructor
  · intro hprefix e he hexit
    have hlast : (splice front).getLast?.map (·.edge.2) = some ptToken := by
      rw [getLast?_splice, he]
      exact congrArg some hexit
    obtain ⟨x, hx, hdst⟩ := Option.map_eq_some_iff.mp hlast
    have hmem : x.edge ∈ (splice (front ++ rest)).map Spliced.edge :=
      hprefix.subset (List.mem_map_of_mem (List.mem_of_getLast? hx))
    obtain ⟨y, hy, hyx⟩ := List.mem_map.mp hmem
    exact h.dst_ne y hy (hyx ▸ hdst)
  · intro hlast
    rw [splice_append rest hlast, List.map_append]
    exact List.prefix_append _ _

theorem exists_splice_append (front : List Edge) (e : Edge) (rest : List Edge) :
    ∃ x tail, splice (front ++ e :: rest) = x :: tail ∧
      x.edge.1 = (front.head?.getD e).1 := by
  cases front with
  | nil => exact exists_splice_cons e rest
  | cons f front => exact exists_splice_cons f (front ++ e :: rest)

/-- The last edge of the prefix is spliced like the trace goes on if both land alike. -/
theorem splice_concat_prefix_iff {front rest : List Edge} {e : Edge} (dst : Node)
    (h : ExitsFollowed (fun e => e.1 = ptToken) (front ++ e :: rest)) :
    (splice (front ++ [(e.1, dst)])).map Spliced.edge <+:
        (splice (front ++ e :: rest)).map Spliced.edge ↔
      landing (e :: rest) = some dst := by
  induction front with
  | nil =>
      obtain ⟨x, tail, hsplice, hsrc, hland⟩ := splice_cons_landing h
      have hedge : (e.1, dst) = x.edge ↔ x.edge.2 = dst :=
        ⟨fun heq => by rw [← heq], fun heq => Prod.ext hsrc.symm heq.symm⟩
      have hsingle : (splice [(e.1, dst)]).map Spliced.edge = [(e.1, dst)] := by
        by_cases hdst : dst = ptToken <;> simp [splice, hdst]
      rw [List.nil_append, List.nil_append, hsingle, hsplice, hland, List.map_cons,
        List.cons_prefix_cons, hedge]
      simp
  | cons f front ih =>
      have hrest := ih h.tail
      by_cases hexit : f.2 = ptToken
      · obtain ⟨x, tail, hx, hxsrc⟩ := exists_splice_append front (e.1, dst) []
        obtain ⟨y, tail', hy, hysrc⟩ := exists_splice_append front e rest
        have hsrc : x.edge.1 = y.edge.1 := by
          rw [hxsrc, hysrc]
          cases front <;> rfl
        have hedge : x.edge = y.edge ↔ x.edge.2 = y.edge.2 :=
          ⟨fun heq => by rw [heq], fun heq => Prod.ext hsrc heq⟩
        rw [hx, hy, List.map_cons, List.map_cons, List.cons_prefix_cons, hedge] at hrest
        rw [List.cons_append, List.cons_append, splice, if_pos hexit, hx, splice, if_pos hexit, hy,
          List.map_cons, List.map_cons, List.cons_prefix_cons, ← hrest]
        simp
      · simp [splice_of_dst_ne _ hexit, hrest]

/-! ## The line at the cut -/

theorem parseLine_of_trimEnd {line line' : Text} (h : trimEnd line = trimEnd line') :
    parseLine line = parseLine line' := by
  rw [parseLine, parseLine, h]

theorem next_of_no_comma {line : Text} (h : ',' ∉ trimEnd line) :
    next [some line] = .done [] := by
  rw [next, parseLine, List.splitOn_eq_singleton h]

theorem le_of_hexValue {value result : ℕ} {s : Text} (h : hexValue value s = some result) :
    value ≤ result := by
  induction s generalizing value with
  | nil => exact (Option.some.inj h).le
  | cons c s ih =>
      obtain ⟨digit, -, hrest⟩ := Option.bind_eq_some_iff.mp h
      have := ih hrest
      omega

theorem HexWord.exists_of_prefix {word : HexWord} {digits : Text} (hne : digits ≠ [])
    (h : digits <+: word.text) : ∃ part : HexWord, part.text = digits := by
  obtain ⟨rest, hrest⟩ := h
  have hvalue := word.digits
  rw [← hrest, hexValue_append] at hvalue
  obtain ⟨value, hdigits, htail⟩ := Option.bind_eq_some_iff.mp hvalue
  exact ⟨⟨digits, value, hne, hdigits, (le_of_hexValue htail).trans_lt word.bound⟩, rfl⟩

theorem HexWord.comma_not_mem (word : HexWord) : ',' ∉ word.text :=
  not_mem_of_hexValue word.digits (by decide)

theorem trimEnd_of_prefix {record : Record} {cut : Text}
    (h : cut <+: record.text ∨ cut = record.text ++ ['\r']) : trimEnd cut <+: record.text := by
  rcases h with h | rfl
  · exact (List.rdropWhile_prefix isWhiteSpace cut).trans h
  · rw [trimEnd, List.rdropWhile_concat_pos _ _ _ (by decide)]
    exact List.rdropWhile_prefix isWhiteSpace record.text

theorem TraceText.exists_cut {trace : TraceText} {text : Text} (h : text <+: trace.text) :
    ∃ (done : List (Record × LineEnd)) (rest : List Record) (cut : Text),
      trace.records = done.map Prod.fst ++ rest ∧
      text = unlines (done.map fun line => (line.1.text, line.2)) cut ∧ '\n' ∉ cut ∧
      (trimEnd cut = [] ∨
        ∃ record rest', rest = record :: rest' ∧ trimEnd cut <+: record.text) := by
  have hnewline : ∀ {record : Record} {cut : Text},
      cut <+: record.text ∨ cut = record.text ++ ['\r'] → '\n' ∉ cut := by
    intro record cut hcut hmem
    have hrecord : '\n' ∈ record.text := by
      rcases hcut with hcut | rfl
      · exact hcut.subset hmem
      · simpa using hmem
    have := Record.range_of_mem_text hrecord
    revert this
    decide
  obtain ⟨ended, last⟩ := trace
  rcases Foundation.exists_cut h with ⟨cut, rfl, hcut⟩ | ⟨done, line, rest, cut, hlines, rfl, hcut⟩
  · refine ⟨ended, last.toList, cut, rfl, rfl, ?_⟩
    cases last with
    | none =>
        obtain rfl := List.prefix_nil.mp hcut
        exact ⟨by simp, .inl rfl⟩
    | some record =>
        exact ⟨hnewline (.inl hcut), .inr ⟨record, [], rfl, trimEnd_of_prefix (.inl hcut)⟩⟩
  · obtain ⟨done, rest, rfl, rfl, hrest⟩ := List.map_eq_append_iff.mp hlines
    obtain ⟨ended, rest, rfl, rfl, rfl⟩ := List.map_eq_cons_iff.mp hrest
    exact ⟨done, ended.1 :: (rest.map Prod.fst ++ last.toList), cut, by simp [TraceText.records],
      rfl, hnewline hcut, .inr ⟨ended.1, _, rfl, trimEnd_of_prefix hcut⟩⟩

/-! ## Complete lines and the line behind them -/

/-- A last line that is no edge ends the iteration, also within a run of exits. -/
theorem traceEdges_append_of_done {texts : List Text} {edges : List Edge} {stop : Lines}
    (htexts : texts.map parseLine = edges.map .edge) (hchain : edges.IsChain Reenter)
    (hstop : next stop = .done []) :
    traceEdges (texts.map some ++ stop) = ((splice edges).map Spliced.edge, false) := by
  induction edges generalizing texts with
  | nil =>
      obtain rfl := List.map_eq_nil_iff.mp htexts
      simp [traceEdges_eq, hstop, splice]
  | cons e rest ih =>
      obtain ⟨line, texts, rfl, hline, htexts⟩ := List.map_eq_cons_iff.mp htexts
      have hrest := ih htexts (List.isChain_cons.mp hchain).2
      by_cases hexit : e.2 = ptToken
      · cases rest with
        | nil =>
            obtain rfl := List.map_eq_nil_iff.mp htexts
            rw [splice, if_pos hexit]
            exact traceEdges_cons_of_done hline hexit hstop
        | cons following rest =>
            obtain ⟨x, tail, hsplice, hsrc⟩ := exists_splice_cons following rest
            have htoken : x.edge.1 = ptToken :=
              hsrc.trans ((List.isChain_cons_cons.mp hchain).1 hexit)
            rw [hsplice] at hrest
            rw [splice, if_pos hexit, hsplice]
            exact traceEdges_cons_of_exit hline hexit hrest htoken
      · rw [List.map_cons, List.cons_append, traceEdges_cons_of_ne hline hexit, hrest,
          splice_of_dst_ne _ hexit]
        rfl

theorem traceEdges_append_panicked {texts : List Text} {edges : List Edge} {stop : Lines}
    (htexts : texts.map parseLine = edges.map .edge) (hstop : (traceEdges stop).2 = true) :
    (traceEdges (texts.map some ++ stop)).2 = true := by
  induction edges generalizing texts with
  | nil =>
      obtain rfl := List.map_eq_nil_iff.mp htexts
      exact hstop
  | cons e rest ih =>
      obtain ⟨line, texts, rfl, hline, htexts⟩ := List.map_eq_cons_iff.mp htexts
      exact traceEdges_cons_panicked hline (ih htexts)

theorem linesOf_done {done : List (Record × LineEnd)} {cut : Text} (hcut : '\n' ∉ cut) :
    linesOf (unlines (done.map fun line => (line.1.text, line.2)) cut) =
      (done.map fun line => line.1.text).map some ++ if cut = [] then [] else [some cut] := by
  have hlines : ∀ line ∈ done.map fun line => (line.1.text, line.2),
      ∀ c ∈ line.1, c ≠ '\r' ∧ (c == '\n') = false := by
    simp only [List.mem_map]
    rintro _ ⟨line, -, rfl⟩ c hc
    have := Record.range_of_mem_text hc
    rw [beq_eq_false_iff_ne]
    constructor <;> rintro rfl <;> simp at this
  have hline : ∀ c ∈ cut, c ≠ '\n' ∧ (c == '\n') = false := by
    intro c hc
    have : c ≠ '\n' := by
      rintro rfl
      exact hcut hc
    exact ⟨this, beq_eq_false_iff_ne.mpr this⟩
  rw [linesOf, linesAt_unlines_append cut (by decide) hlines]
  by_cases hnil : cut = []
  · subst hnil
    simp [linesAt]
  · rw [linesAt_of_not_newline hnil hline, if_neg hnil]
    simp

theorem Record.digits_of_prefix {record : Record} {cut : Text} (hcomma : ',' ∈ cut)
    (h : cut <+: record.text) :
    ∃ digits, cut = record.src.text ++ ',' :: digits ∧ digits <+: record.dst.text := by
  have hsrc : record.src.text <+: record.text := List.prefix_append _ _
  rcases List.prefix_or_prefix_of_prefix h hsrc with hshort | ⟨tail, rfl⟩
  · exact absurd (hshort.subset hcomma) record.src.comma_not_mem
  · have htail := (List.prefix_append_right_inj _).mp h
    cases tail with
    | nil => exact absurd hcomma (by simpa using record.src.comma_not_mem)
    | cons c digits =>
        obtain ⟨rfl, hdigits⟩ := List.cons_prefix_cons.mp htail
        exact ⟨digits, rfl, hdigits⟩

theorem truncated_behind_comma {texts : List Text} {front : List Edge} {cut : Text}
    {record : Record} {rest : List Record}
    (htexts : texts.map parseLine = front.map .edge)
    (h : ExitsFollowed (fun e => e.1 = ptToken) (front ++ (record :: rest).map Record.edge))
    (hcomma : ',' ∈ trimEnd cut) (hfront : trimEnd cut <+: record.text) :
    ((traceEdges (texts.map some ++ if cut = [] then [] else [some cut])).2 = false ∧
        (traceEdges (texts.map some ++ if cut = [] then [] else [some cut])).1 <+:
          (splice (front ++ (record :: rest).map Record.edge)).map Spliced.edge) ↔
      match (trimEnd cut).splitOn ',' with
      | [_, digits] =>
          digits ≠ [] ∧ hexValue 0 digits = landing ((record :: rest).map Record.edge)
      | _ => ∀ e ∈ front.getLast?, e.2 ≠ ptToken := by
  obtain ⟨digits, hcut, hdigits⟩ := Record.digits_of_prefix hcomma hfront
  have hne : cut ≠ [] := by
    rintro rfl
    simp [trimEnd] at hcomma
  have hsplit : (trimEnd cut).splitOn ',' = [record.src.text, digits] := by
    rw [hcut, splitOn_append_sep _ _ _ record.src.comma_not_mem,
      List.splitOn_eq_singleton fun hmem => record.dst.comma_not_mem (hdigits.subset hmem)]
  rw [if_neg hne, hsplit]
  by_cases hnil : digits = []
  · subst hnil
    have hstop : (traceEdges [some cut]).2 = true := by
      have hparse : parseLine cut = .invalid := by
        have hempty : fromStrRadix [] = none := rfl
        simp only [parseLine, hsplit, hempty]
        cases fromStrRadix record.src.text <;> rfl
      rw [traceEdges_eq, next, hparse]
    simp [traceEdges_append_panicked htexts hstop]
  · obtain ⟨part, rfl⟩ := HexWord.exists_of_prefix hnil hdigits
    have hparse : parseLine cut = .edge (record.src.value, part.value) := by
      have hread := parseLine_text ⟨record.src, part⟩
      rw [← parseLine_of_trimEnd
        (hcut.trans (Record.trimEnd_text ⟨record.src, part⟩).symm)] at hread
      exact hread
    have hchain : (front ++ [(record.src.value, part.value)]).IsChain Reenter := by
      obtain ⟨hfront, -, hlast⟩ := List.isChain_append.mp h.isChain
      exact hfront.append (.singleton _) (by simpa [Reenter, Record.edge] using hlast)
    have hread : traceEdges ((texts ++ [cut]).map some ++ []) = _ :=
      traceEdges_append_of_done (by simp [htexts, hparse]) hchain rfl
    rw [List.map_append, List.map_singleton, List.append_nil] at hread
    have hiff := splice_concat_prefix_iff part.value h
    simp only [hread, part.digits, List.map_cons]
    simpa [hnil, eq_comm, Record.edge] using hiff

/--
Exactly the texts that break off so are read without a panic, with a prefix of
the edges of the trace.
-/
theorem truncated_prefix_iff (trace : TraceText)
    (h : ExitsFollowed (fun e => e.1 = ptToken) trace.edges) {text : Text}
    (htext : text <+: trace.text) :
    ((traceEdges (linesOf text)).2 = false ∧
        (traceEdges (linesOf text)).1 <+: (traceEdges (linesOf trace.text)).1) ↔
      Tolerated trace.edges text := by
  obtain ⟨done, rest, cut, hrecords, rfl, hcut, htrim⟩ := TraceText.exists_cut htext
  have hnewline : ∀ line ∈ done.map fun line => (line.1.text, line.2), '\n' ∉ line.1 := by
    simp only [List.mem_map]
    rintro _ ⟨line, -, rfl⟩ hc
    have := Record.range_of_mem_text hc
    revert this
    decide
  have hcount := count_newline_unlines hnewline hcut
  rw [List.length_map] at hcount
  have hedges : trace.edges = done.map (fun line => line.1.edge) ++ rest.map Record.edge := by
    simp [TraceText.edges, hrecords]
  have htexts : (done.map fun line => line.1.text).map parseLine =
      (done.map fun line => line.1.edge).map .edge := by
    simp [parseLine_text]
  rw [trace.traceEdges_linesOf h, Tolerated, cutLine, rtakeWhile_unlines _ hcut, hcount,
    linesOf_done hcut]
  rw [hedges] at h ⊢
  rw [List.take_left' (by simp), List.drop_left' (by simp)]
  generalize done.map (fun line => line.1.text) = texts at htexts ⊢
  generalize done.map (fun line => line.1.edge) = front at htexts h ⊢
  by_cases hcomma : ',' ∈ trimEnd cut
  · obtain ⟨record, rest, rfl, hprefix⟩ := htrim.resolve_left (List.ne_nil_of_mem hcomma)
    exact truncated_behind_comma htexts h hcomma hprefix
  · rw [List.splitOn_eq_singleton hcomma]
    have hstop : next (if cut = [] then [] else [some cut]) = .done [] := by
      split
      · rfl
      · exact next_of_no_comma hcomma
    rw [traceEdges_append_of_done htexts h.isChain.left_of_append hstop]
    simpa using splice_prefix_iff h

def plainTrace : TraceText :=
  let word (text : Text) (value : Node)
      (h : text ≠ [] ∧ hexValue 0 text = some value ∧ value < 2 ^ 64) : HexWord :=
    ⟨text, value, h.1, h.2.1, h.2.2⟩
  let shared := word ['2', 'f'] 0x2f (by decide)
  ⟨[(⟨word ['1', '0'] 0x10 (by decide), shared⟩, .newline),
    (⟨shared, word ['3', '0'] 0x30 (by decide)⟩, .newline)], none⟩

theorem plainTrace_exits : ExitsFollowed (fun e => e.1 = ptToken) plainTrace.edges := by
  decide

theorem truncated_prefix_plain :
    ((traceEdges (linesOf "10,2f\n2".toList)).2 = false ∧
        (traceEdges (linesOf "10,2f\n2".toList)).1 <+:
          (traceEdges (linesOf plainTrace.text)).1) ↔
      Tolerated plainTrace.edges "10,2f\n2".toList :=
  truncated_prefix_iff plainTrace plainTrace_exits (by decide)

/-- A text that ends behind the comma of a line panics. -/
theorem truncated_trace_panics :
    ¬ ∀ trace : TraceText, ExitsFollowed (fun e => e.1 = ptToken) trace.edges →
      ∀ text, text <+: trace.text →
        (traceEdges (linesOf text)).2 = false ∧
          (traceEdges (linesOf text)).1 <+: (traceEdges (linesOf trace.text)).1 := by
  intro h
  have hpanicked : (traceEdges (linesOf "10,".toList)).2 = true := by decide
  have hread := h plainTrace plainTrace_exits "10,".toList (by decide)
  exact Bool.false_ne_true (hread.1.symm.trans hpanicked)

end TdvfFuzz.FastMatcher
