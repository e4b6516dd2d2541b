import TdvfFuzz.Foundation.Hex
import TdvfFuzz.Foundation.Lines

/-!
# Reading a trace

`TraceFileIter` yields the edges of a trace and splices each edge into the exit
token with the edge out of it.  A line may end the iteration, or panic.
-/

namespace TdvfFuzz.FastMatcher

open TdvfFuzz.Foundation

abbrev Node := ℕ

abbrev Edge := Node × Node

/-- `PT_TOKEN`, the largest 64-bit word. -/
def ptToken : Node := 0xffffffffffffffff

/-- What `lines()` yields, with `none` for a line that cannot be read. -/
abbrev Lines := List (Option Text)

/-- `lines()` of a text that is valid throughout. -/
def linesOf (text : Text) : Lines := (linesAt (· == '\n') text).map some

/-! ## One line -/

/-- `char::is_whitespace` -/
def isWhiteSpace (c : Char) : Bool :=
  let n := c.toNat
  (9 ≤ n && n ≤ 13) || n == 32 || n == 0x85 || n == 0xa0 || n == 0x1680 ||
    (0x2000 ≤ n && n ≤ 0x200a) || n == 0x2028 || n == 0x2029 || n == 0x202f ||
    n == 0x205f || n == 0x3000

def trimEnd (s : Text) : Text := s.rdropWhile isWhiteSpace

def dropPlus : Text → Text
  | '+' :: s => s
  | s => s

/-- `u64::from_str_radix(s, 16).ok()` -/
def fromStrRadix (s : Text) : Option Node :=
  if dropPlus s = [] then none
  else (hexValue 0 (dropPlus s)).filter (· < 2 ^ 64)

inductive Parsed where
  | skipped
  | invalid
  | edge (e : Edge)
  deriving DecidableEq, Repr

/-- The two fields of a line, `skipped` if it has another number of them. -/
def parseLine (line : Text) : Parsed :=
  match (trimEnd line).splitOn ',' with
  | [d0, d1] =>
      match fromStrRadix d0, fromStrRadix d1 with
      | some src, some dst => .edge (src, dst)
      | _, _ => .invalid
  | _ => .skipped

/-! ## The iterator -/

inductive Next where
  | done (rest : Lines)
  | panicked
  | edge (e : Edge) (rest : Lines)
  deriving DecidableEq, Repr

def next : Lines → Next
  | [] => .done []
  | none :: rest => .done rest
  | some line :: rest =>
      match parseLine line with
      | .skipped => .done rest
      | .invalid => .panicked
      | .edge (src, dst) =>
          if dst = ptToken then
            match next rest with
            | .edge (srcNext, dstNext) rest' =>
                if srcNext = ptToken then .edge (src, dstNext) rest'
                else .panicked -- `assert!(false, ..)`
            | .panicked => .panicked
            | .done rest' => .edge (src, dst) rest'
          else .edge (src, dst) rest

/-- The edges yielded until the iteration ends, and whether it ends in a panic. -/
def iterate : ℕ → Lines → List Edge × Bool
  | 0, _ => ([], false)
  | fuel + 1, lines =>
      match next lines with
      | .done _ => ([], false)
      | .panicked => ([], true)
      | .edge e rest =>
          let (edges, panicked) := iterate fuel rest
          (e :: edges, panicked)

/-- `for edge in ti`; every yielded edge takes at least one line. -/
def traceEdges (lines : Lines) : List Edge × Bool := iterate (lines.length + 1) lines

/-! ## Progress -/

def Next.rest : Next → Lines
  | .done rest => rest
  | .panicked => []
  | .edge _ rest => rest

theorem next_rest_length (line : Option Text) (lines : Lines) :
    (next (line :: lines)).rest.length ≤ lines.length := by
  induction lines generalizing line with
  | nil =>
      cases line with
      | none => simp [next, Next.rest]
      | some line =>
          rw [next]
          cases parseLine line with
          | skipped => rfl
          | invalid => rfl
          | edge e =>
              simp only [next]
              split <;> rfl
  | cons following lines ih =>
      cases line with
      | none => simp [next, Next.rest]
      | some line =>
          rw [next]
          cases parseLine line with
          | skipped => simp [Next.rest]
          | invalid => simp [Next.rest]
          | edge e =>
              have hrest := ih following
              simp only
              split
              · cases hnext : next (following :: lines) with
                | panicked => simp [Next.rest]
                | done rest =>
                    rw [hnext] at hrest
                    simp only [Next.rest, List.length_cons] at hrest ⊢
                    omega
                | edge e' rest =>
                    rw [hnext] at hrest
                    by_cases htoken : e'.1 = ptToken
                    · simp only [htoken, if_true, Next.rest, List.length_cons] at hrest ⊢
                      omega
                    · simp [htoken, Next.rest]
              · simp [Next.rest]

theorem length_lt_of_next {lines rest : Lines} {e : Edge}
    (h : next lines = .edge e rest) : rest.length < lines.length := by
  cases lines with
  | nil => simp [next] at h
  | cons line lines =>
      have := next_rest_length line lines
      rw [h] at this
      exact Nat.lt_succ_of_le this

theorem iterate_fuel (fuel fuel' : ℕ) (lines : Lines) (h : lines.length < fuel)
    (h' : lines.length < fuel') : iterate fuel lines = iterate fuel' lines := by
  induction fuel generalizing fuel' lines with
  | zero => omega
  | succ fuel ih =>
      cases fuel' with
      | zero => omega
      | succ fuel' =>
          rw [iterate, iterate]
          cases hnext : next lines with
          | done rest => rfl
          | panicked => rfl
          | edge e rest =>
              have hlength := length_lt_of_next hnext
              simp only [ih fuel' rest (by omega) (by omega)]

theorem traceEdges_eq (lines : Lines) :
    traceEdges lines =
      match next lines with
      | .done _ => ([], false)
      | .panicked => ([], true)
      | .edge e rest => (e :: (traceEdges rest).1, (traceEdges rest).2) := by
  rw [traceEdges, iterate]
  cases hnext : next lines with
  | done rest => rfl
  | panicked => rfl
  | edge e rest =>
      have hlength := length_lt_of_next hnext
      simp only [traceEdges]
      rw [iterate_fuel lines.length (rest.length + 1) rest hlength (by omega)]

/-! ## Well-formed traces -/

/-- The next line is an edge out of the exit token. -/
def Reenters : Lines → Prop
  | some line :: _ => ∃ dst, parseLine line = .edge (ptToken, dst)
  | _ => False

/-- Two fields are addresses, and each exit edge is followed by a re-entry edge. -/
def WellFormed : Lines → Prop
  | [] => True
  | none :: rest => WellFormed rest
  | some line :: rest =>
      parseLine line ≠ .invalid ∧
        (∀ src, parseLine line = .edge (src, ptToken) → Reenters rest) ∧
        WellFormed rest

instance : DecidablePred Reenters
  | [] => isFalse id
  | none :: _ => isFalse id
  | some line :: _ =>
      match hline : parseLine line with
      | .edge (src, _) => decidable_of_iff (src = ptToken) (by simp [Reenters, hline])
      | .skipped | .invalid => isFalse (by simp [Reenters, hline])

instance decidableWellFormed : DecidablePred WellFormed
  | [] => isTrue trivial
  | none :: rest => decidableWellFormed rest
  | some line :: rest =>
      have := decidableWellFormed rest
      match hline : parseLine line with
      | .edge (_, dst) =>
          decidable_of_iff ((dst = ptToken → Reenters rest) ∧ WellFormed rest)
            (by simp [WellFormed, hline])
      | .skipped => decidable_of_iff (WellFormed rest) (by simp [WellFormed, hline])
      | .invalid => isFalse (by simp [WellFormed, hline])

theorem WellFormed.rest {line : Option Text} {lines : Lines}
    (h : WellFormed (line :: lines)) : WellFormed lines := by
  cases line with
  | none => exact h
  | some line => exact h.2.2

theorem WellFormed.next_edge {line : Text} {lines : Lines} {src dst : Node}
    (h : WellFormed (some line :: lines)) (hline : parseLine line = .edge (src, dst)) :
    ∃ dst' rest, next (some line :: lines) = .edge (src, dst') rest ∧
      WellFormed rest ∧ dst' ≠ ptToken := by
  induction lines generalizing line src dst with
  | nil =>
      have hdst : dst ≠ ptToken := by
        rintro rfl
        exact h.2.1 src hline
      exact ⟨dst, [], by simp [next, hline, hdst], h.2.2, hdst⟩
  | cons following lines ih =>
      by_cases hdst : dst = ptToken
      · subst hdst
        cases following with
        | none => exact (h.2.1 src hline).elim
        | some following =>
            obtain ⟨dst, hfollowing⟩ := h.2.1 src hline
            obtain ⟨dst', rest, hnext, hrest, hne⟩ := ih h.rest hfollowing
            refine ⟨dst', rest, ?_, hrest, hne⟩
            rw [next, hline]
            simp [hnext]
      · exact ⟨dst, following :: lines, by simp [next, hline, hdst], h.rest, hdst⟩

theorem WellFormed.next_cases {lines : Lines} (h : WellFormed lines) :
    (∃ rest, next lines = .done rest) ∨
      ∃ e rest, next lines = .edge e rest ∧ WellFormed rest ∧ e.2 ≠ ptToken := by
  cases lines with
  | nil => exact .inl ⟨[], rfl⟩
  | cons line lines =>
      cases line with
      | none => exact .inl ⟨lines, rfl⟩
      | some line =>
          cases hline : parseLine line with
          | skipped => exact .inl ⟨lines, by simp [next, hline]⟩
          | invalid => exact (h.1 hline).elim
          | edge e =>
              obtain ⟨dst', rest, hnext, hrest, hne⟩ := h.next_edge hline
              exact .inr ⟨_, rest, hnext, hrest, hne⟩

/-- Well-formed traces never panic, and no edge into the exit token is left. -/
theorem WellFormed.traceEdges {lines : Lines} (h : WellFormed lines) :
    (traceEdges lines).2 = false ∧ ∀ e ∈ (traceEdges lines).1, e.2 ≠ ptToken := by
  obtain ⟨n, hn⟩ : ∃ n, lines.length = n := ⟨_, rfl⟩
  induction n using Nat.strong_induction_on generalizing lines with
  | _ n ih =>
      rw [traceEdges_eq]
      rcases h.next_cases with ⟨rest, hnext⟩ | ⟨e, rest, hnext, hrest, hne⟩
      · simp [hnext]
      · obtain ⟨hpanicked, hedges⟩ := ih rest.length (hn ▸ length_lt_of_next hnext) hrest rfl
        rw [hnext]
        simpa [hpanicked, hne] using hedges

end TdvfFuzz.FastMatcher
