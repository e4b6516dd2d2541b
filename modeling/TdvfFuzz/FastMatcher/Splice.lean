import TdvfFuzz.FastMatcher.Trace

/-!
# Spliced traces

An edge into the exit token and the edge out of it that follows are one edge of
the traced code.  `TraceFileIter` yields the spliced trace.
-/

namespace TdvfFuzz.FastMatcher

open TdvfFuzz.Foundation

/-! ## The text of a trace -/

structure HexWord where
  text : Text
  value : Node
  nonempty : text ≠ []
  digits : hexValue 0 text = some value
  bound : value < 2 ^ 64

structure Record where
  src : HexWord
  dst : HexWord

namespace Record

def text (record : Record) : Text := record.src.text ++ ',' :: record.dst.text

def edge (record : Record) : Edge := (record.src.value, record.dst.value)

end Record

/-- The lines of a trace; the last one may lack its end. -/
structure TraceText where
  ended : List (Record × LineEnd)
  last : Option Record

namespace TraceText

def records (trace : TraceText) : List Record :=
  trace.ended.map Prod.fst ++ trace.last.toList

def edges (trace : TraceText) : List Edge := trace.records.map Record.edge

def text (trace : TraceText) : Text :=
  unlines (trace.ended.map fun line => (line.1.text, line.2))
    (match trace.last with
      | none => []
      | some record => record.text)

end TraceText

theorem Record.range_of_mem_text {record : Record} {c : Char} (h : c ∈ record.text) :
    44 ≤ c.toNat ∧ c.toNat ≤ 102 := by
  have hdigits : ∀ word : HexWord, c ∈ word.text → 44 ≤ c.toNat ∧ c.toNat ≤ 102 :=
    fun word hc => by
      have := range_of_hexValue word.digits hc
      omega
  rcases List.mem_append.mp h with h | h
  · exact hdigits record.src h
  · rcases List.mem_cons.mp h with rfl | h
    · decide
    · exact hdigits record.dst h

theorem Record.splitOn_text (record : Record) :
    record.text.splitOn ',' = [record.src.text, record.dst.text] := by
  have hcomma : ∀ word : HexWord, ',' ∉ word.text := fun word =>
    not_mem_of_hexValue word.digits (by decide)
  rw [Record.text, splitOn_append_sep _ _ _ (hcomma _),
    List.splitOn_eq_singleton (hcomma _)]

theorem TraceText.linesAt_text (trace : TraceText) {isBreak : Char → Bool}
    (hnewline : isBreak '\n' = true)
    (hbreak : ∀ c : Char, 44 ≤ c.toNat ∧ c.toNat ≤ 102 → isBreak c = false) :
    linesAt isBreak trace.text = trace.records.map Record.text := by
  have hclean : ∀ record : Record, ∀ c ∈ record.text, c ≠ '\r' ∧ isBreak c = false := by
    intro record c hc
    have hrange := Record.range_of_mem_text hc
    refine ⟨?_, hbreak c hrange⟩
    rintro rfl
    simp at hrange
  obtain ⟨ended, last⟩ := trace
  have hlines : ∀ line ∈ ended.map fun line => (line.1.text, line.2),
      ∀ c ∈ line.1, c ≠ '\r' ∧ isBreak c = false := by
    simp only [List.mem_map]
    rintro _ ⟨line, -, rfl⟩
    exact hclean line.1
  cases last with
  | none =>
      rw [TraceText.text, linesAt_unlines hnewline hlines (by simp)]
      simp [TraceText.records]
  | some record =>
      have hne : record.text ≠ [] := by simp [Record.text]
      rw [TraceText.text, linesAt_unlines hnewline hlines (hclean record)]
      simp [TraceText.records, hne]

/-! ## Splicing -/

structure Spliced where
  edge : Edge
  spliced : Bool
  deriving DecidableEq, Repr

/-- A run of edges through the exit token becomes one edge. -/
def splice : List Edge → List Spliced
  | [] => []
  | e :: rest =>
      if e.2 = ptToken then
        match splice rest with
        | [] => [⟨e, false⟩]
        | following :: rest => ⟨(e.1, following.edge.2), true⟩ :: rest
      else ⟨e, false⟩ :: splice rest

theorem splice_of_dst_ne {e : Edge} (rest : List Edge) (h : e.2 ≠ ptToken) :
    splice (e :: rest) = ⟨e, false⟩ :: splice rest := by
  rw [splice, if_neg h]

/-- Each edge into the exit token is followed by one that meets `P`. -/
def ExitsFollowed (P : Edge → Prop) : List Edge → Prop
  | [] => True
  | [e] => e.2 ≠ ptToken
  | e :: following :: rest =>
      (e.2 = ptToken → P following) ∧ ExitsFollowed P (following :: rest)

instance decidableExitsFollowed {P : Edge → Prop} [DecidablePred P] :
    DecidablePred (ExitsFollowed P)
  | [] => isTrue trivial
  | [e] => inferInstanceAs (Decidable (e.2 ≠ ptToken))
  | e :: following :: rest =>
      have := decidableExitsFollowed (P := P) (following :: rest)
      inferInstanceAs (Decidable ((e.2 = ptToken → P following) ∧ _))

theorem ExitsFollowed.mono {P Q : Edge → Prop} (hPQ : ∀ e, P e → Q e) {edges : List Edge}
    (h : ExitsFollowed P edges) : ExitsFollowed Q edges := by
  induction edges with
  | nil => trivial
  | cons e rest ih =>
      cases rest with
      | nil => exact h
      | cons following rest => exact ⟨fun hexit => hPQ _ (h.1 hexit), ih h.2⟩

theorem exists_splice_cons (e : Edge) (rest : List Edge) :
    ∃ x tail, splice (e :: rest) = x :: tail ∧ x.edge.1 = e.1 := by
  rw [splice]
  split
  · split <;> exact ⟨_, _, rfl, rfl⟩
  · exact ⟨_, _, rfl, rfl⟩

theorem ExitsFollowed.dst_ne {P : Edge → Prop} {edges : List Edge}
    (h : ExitsFollowed P edges) : ∀ x ∈ splice edges, x.edge.2 ≠ ptToken := by
  induction edges with
  | nil => simp [splice]
  | cons e rest ih =>
      cases rest with
      | nil =>
          have hdst : e.2 ≠ ptToken := h
          rw [splice_of_dst_ne _ hdst]
          simpa [splice] using hdst
      | cons following rest =>
          have hrest := ih h.2
          obtain ⟨x, tail, hsplice, -⟩ := exists_splice_cons following rest
          rw [hsplice] at hrest
          rw [splice, hsplice]
          by_cases hexit : e.2 = ptToken
          · simpa [hexit] using hrest
          · simpa [hexit] using hrest

/-! ## `TraceFileIter` splices -/

theorem next_splice {line : Text} {texts : List Text} {e : Edge} {edges : List Edge}
    (hline : parseLine line = .edge e) (htexts : texts.map parseLine = edges.map .edge)
    (h : ExitsFollowed (fun e => e.1 = ptToken) (e :: edges)) :
    ∃ (x : Spliced) (texts' : List Text) (edges' : List Edge),
      next (some line :: texts.map some) = .edge x.edge (texts'.map some) ∧
      splice (e :: edges) = x :: splice edges' ∧ x.edge.1 = e.1 ∧
      texts'.map parseLine = edges'.map .edge ∧
      ExitsFollowed (fun e => e.1 = ptToken) edges' ∧ edges'.length ≤ edges.length := by
  induction edges generalizing line texts e with
  | nil =>
      obtain rfl := List.map_eq_nil_iff.mp htexts
      have hdst : e.2 ≠ ptToken := h
      exact ⟨⟨e, false⟩, [], [], by simp [next, hline, hdst], splice_of_dst_ne [] hdst, rfl, rfl,
        trivial, le_refl _⟩
  | cons following edges ih =>
      obtain ⟨nextLine, texts, rfl, hnextLine, htexts⟩ := List.map_eq_cons_iff.mp htexts
      obtain ⟨x, texts', edges', hnext, hsplice, hsrc, htexts', hfollowed, hlength⟩ :=
        ih hnextLine htexts h.2
      by_cases hexit : e.2 = ptToken
      · have htoken : x.edge.1 = ptToken := hsrc.trans (h.1 hexit)
        refine ⟨⟨(e.1, x.edge.2), true⟩, texts', edges', ?_, ?_, rfl, htexts', hfollowed,
          hlength.trans (Nat.le_succ _)⟩
        · rw [List.map_cons, next, hline]
          simp [hexit, hnext, htoken]
        · rw [splice, if_pos hexit, hsplice]
      · exact ⟨⟨e, false⟩, nextLine :: texts, following :: edges,
          by simp [next, hline, hexit], splice_of_dst_ne _ hexit, rfl,
          by simp [hnextLine, htexts], h.2, le_refl _⟩

/-- The iterator yields the spliced trace and does not panic. -/
theorem traceEdges_splice {texts : List Text} {edges : List Edge}
    (htexts : texts.map parseLine = edges.map .edge)
    (h : ExitsFollowed (fun e => e.1 = ptToken) edges) :
    traceEdges (texts.map some) = ((splice edges).map Spliced.edge, false) := by
  obtain ⟨n, hn⟩ : ∃ n, edges.length = n := ⟨_, rfl⟩
  induction n using Nat.strong_induction_on generalizing texts edges with
  | _ n ih =>
      rw [traceEdges_eq]
      cases edges with
      | nil =>
          obtain rfl := List.map_eq_nil_iff.mp htexts
          rfl
      | cons e edges =>
          obtain ⟨line, texts, rfl, hline, htexts⟩ := List.map_eq_cons_iff.mp htexts
          obtain ⟨x, texts', edges', hnext, hsplice, -, htexts', hfollowed, hlength⟩ :=
            next_splice hline htexts h
          have hrest := ih edges'.length (by simp at hn; omega) htexts' hfollowed rfl
          simp only [List.map_cons, hnext, hsplice, hrest]

theorem Record.trimEnd_text (record : Record) : trimEnd record.text = record.text := by
  rw [trimEnd, List.rdropWhile_eq_self_iff]
  intro hne
  have := Record.range_of_mem_text (List.getLast_mem hne)
  simp only [isWhiteSpace, Bool.or_eq_true, Bool.and_eq_true, decide_eq_true_eq, beq_iff_eq]
  omega

theorem parseLine_text (record : Record) : parseLine record.text = .edge record.edge := by
  have hword : ∀ word : HexWord, fromStrRadix word.text = some word.value := by
    intro word
    have hplus : '+' ∉ word.text := not_mem_of_hexValue word.digits (by decide)
    have hdigits : dropPlus word.text = word.text := by
      unfold dropPlus
      split <;> simp_all
    rw [fromStrRadix, hdigits, if_neg word.nonempty, word.digits, Option.filter_some, if_pos]
    simpa using word.bound
  simp [parseLine, record.trimEnd_text, Record.splitOn_text, hword, Record.edge]

theorem TraceText.traceEdges_linesOf (trace : TraceText)
    (h : ExitsFollowed (fun e => e.1 = ptToken) trace.edges) :
    traceEdges (linesOf trace.text) = ((splice trace.edges).map Spliced.edge, false) := by
  have hbreak : ∀ c : Char, 44 ≤ c.toNat ∧ c.toNat ≤ 102 → (c == '\n') = false := by
    intro c hc
    rw [beq_eq_false_iff_ne]
    rintro rfl
    revert hc
    decide
  rw [linesOf, trace.linesAt_text (by decide) hbreak]
  exact traceEdges_splice (by simp [TraceText.edges, parseLine_text]) h

end TdvfFuzz.FastMatcher
