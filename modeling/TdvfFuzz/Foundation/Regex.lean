import TdvfFuzz.Foundation.Text

/-!
# Backtracking regular expressions

`run` lists every way a pattern can match at a position, in the order in which
a backtracking engine tries them, so its head is the match such an engine
reports.  `Accepts` is the language of a pattern, with its groups, and
`mem_run` says that `run` enumerates exactly the language.
-/

namespace TdvfFuzz.Foundation

inductive Regex where
  | cls (p : Char → Bool)
  | rep (greedy : Bool) (least : Nat) (p : Char → Bool)
  | seq (first second : Regex)
  | group (body : Regex)
  | lineStart
  | lineEnd

structure Match where
  consumed : Text
  groups : List Text
  rest : Text
  deriving DecidableEq, Repr

namespace Regex

def lit : Text → Regex
  | [] => .rep true 0 fun _ => false
  | [c] => .cls (· == c)
  | c :: s => .seq (.cls (· == c)) (lit s)

/-- The ways to cut off a run of class characters, shortest first. -/
def spans (p : Char → Bool) : Text → List (Text × Text)
  | [] => [([], [])]
  | c :: s =>
      ([], c :: s) ::
        if p c then (spans p s).map fun cut => (c :: cut.1, cut.2) else []

def lastOr (before : Option Char) (consumed : Text) : Option Char :=
  consumed.getLast?.or before

def run : Regex → Option Char → Text → List Match
  | .cls p, _, s =>
      match s with
      | [] => []
      | c :: rest => if p c then [⟨[c], [], rest⟩] else []
  | .rep greedy least p, _, s =>
      let cuts := (spans p s).filter fun cut => least ≤ cut.1.length
      (if greedy then cuts.reverse else cuts).map fun cut => ⟨cut.1, [], cut.2⟩
  | .seq first second, before, s =>
      (first.run before s).flatMap fun m =>
        (second.run (lastOr before m.consumed) m.rest).map fun m' =>
          ⟨m.consumed ++ m'.consumed, m.groups ++ m'.groups, m'.rest⟩
  | .group body, before, s =>
      (body.run before s).map fun m => { m with groups := m.consumed :: m.groups }
  | .lineStart, before, s =>
      if before = none ∨ before = some '\n' then [⟨[], [], s⟩] else []
  | .lineEnd, _, s =>
      if s = [] ∨ s.head? = some '\n' then [⟨[], [], s⟩] else []

/-- The match a backtracking engine reports at this position. -/
def first (r : Regex) (before : Option Char) (s : Text) : Option Match :=
  (r.run before s).head?

/--
All successive leftmost matches.  The patterns used here never match the empty
text, so the scan resumes `skip` characters later, after the last match.
-/
def scanFrom (r : Regex) : Nat → Option Char → Text → List Match
  | _, _, [] => []
  | skip + 1, _, c :: s => scanFrom r skip (some c) s
  | 0, before, c :: s =>
      match r.first before (c :: s) with
      | some m => m :: scanFrom r (m.consumed.length - 1) (some c) s
      | none => scanFrom r 0 (some c) s

/-- `re.findall`, with the whole matches and their groups. -/
def findall (r : Regex) (s : Text) : List Match := scanFrom r 0 none s

/-- `re.search`. -/
def search (r : Regex) (s : Text) : Option Match := (findall r s).head?

/-! ## The language of a pattern -/

def Accepts : Regex → Option Char → Text → Text → List Text → Prop
  | .cls p, _, w, _, groups => (∃ c, w = [c] ∧ p c = true) ∧ groups = []
  | .rep _ least p, _, w, _, groups =>
      (∀ c ∈ w, p c = true) ∧ least ≤ w.length ∧ groups = []
  | .seq first second, before, w, after, groups =>
      ∃ w₁ w₂ groups₁ groups₂, w = w₁ ++ w₂ ∧ groups = groups₁ ++ groups₂ ∧
        first.Accepts before w₁ (w₂ ++ after) groups₁ ∧
        second.Accepts (lastOr before w₁) w₂ after groups₂
  | .group body, before, w, after, groups =>
      ∃ inner, body.Accepts before w after inner ∧ groups = w :: inner
  | .lineStart, before, w, _, groups =>
      w = [] ∧ groups = [] ∧ (before = none ∨ before = some '\n')
  | .lineEnd, _, w, after, groups =>
      w = [] ∧ groups = [] ∧ (after = [] ∨ after.head? = some '\n')

theorem mem_spans {p : Char → Bool} :
    ∀ {s : Text} {cut : Text × Text}, cut ∈ spans p s ↔
      s = cut.1 ++ cut.2 ∧ ∀ c ∈ cut.1, p c = true
  | [], (w, rest) => by
      simp only [spans, List.mem_singleton, Prod.mk.injEq]
      constructor
      · rintro ⟨rfl, rfl⟩
        simp
      · rintro ⟨h, -⟩
        exact List.append_eq_nil_iff.mp h.symm
  | c :: s, (w, rest) => by
      simp only [spans, List.mem_cons, Prod.mk.injEq]
      constructor
      · rintro (⟨rfl, rfl⟩ | h)
        · simp
        · by_cases hc : p c = true
          · simp only [hc, if_true, List.mem_map, Prod.mk.injEq] at h
            obtain ⟨cut, hcut, rfl, rfl⟩ := h
            obtain ⟨hs, hall⟩ := mem_spans.mp hcut
            refine ⟨by simp [hs], ?_⟩
            simpa [hc] using hall
          · simp [hc] at h
      · rintro ⟨h, hall⟩
        cases w with
        | nil => exact .inl ⟨rfl, h.symm⟩
        | cons d w =>
            obtain ⟨rfl, hs⟩ := List.cons.inj h
            have hc : p c = true := hall c (by simp)
            simp only [hc, if_true, List.mem_map, Prod.mk.injEq]
            exact .inr ⟨(w, rest),
              mem_spans.mpr ⟨hs, fun d hd => hall d (by simp [hd])⟩, rfl, rfl⟩

theorem mem_run_cls (p : Char → Bool) (before : Option Char) (s : Text) (m : Match) :
    m ∈ (cls p).run before s ↔
      s = m.consumed ++ m.rest ∧ (cls p).Accepts before m.consumed m.rest m.groups := by
  obtain ⟨w, groups, rest⟩ := m
  simp only [run, Accepts]
  cases s with
  | nil =>
      simp only [List.not_mem_nil, false_iff]
      rintro ⟨h, ⟨c, rfl, -⟩, -⟩
      simp at h
  | cons c s =>
      by_cases hc : p c = true
      · simp only [hc, if_true, List.mem_singleton, Match.mk.injEq]
        constructor
        · rintro ⟨rfl, rfl, rfl⟩
          exact ⟨rfl, ⟨c, rfl, hc⟩, rfl⟩
        · rintro ⟨h, ⟨d, rfl, -⟩, rfl⟩
          obtain ⟨rfl, rfl⟩ := List.cons.inj h
          exact ⟨rfl, rfl, rfl⟩
      · simp only [hc, Bool.false_eq_true, if_false, List.not_mem_nil, false_iff]
        rintro ⟨h, ⟨d, rfl, hd⟩, -⟩
        obtain ⟨rfl, -⟩ := List.cons.inj h
        exact hc hd

/-- Greediness changes the order of the matches only. -/
theorem mem_run_rep (greedy : Bool) (least : Nat) (p : Char → Bool) (before : Option Char)
    (s : Text) (m : Match) :
    m ∈ (rep greedy least p).run before s ↔
      s = m.consumed ++ m.rest ∧
        (rep greedy least p).Accepts before m.consumed m.rest m.groups := by
  obtain ⟨w, groups, rest⟩ := m
  have horder : ∀ cut (cuts : List (Text × Text)),
      cut ∈ (if greedy then cuts.reverse else cuts) ↔ cut ∈ cuts := by
    intro cut cuts
    cases greedy <;> simp
  simp only [run, List.mem_map, horder, List.mem_filter, mem_spans, Accepts,
    decide_eq_true_eq, Match.mk.injEq]
  constructor
  · rintro ⟨cut, ⟨⟨hs, hall⟩, hleast⟩, rfl, rfl, rfl⟩
    exact ⟨hs, hall, hleast, rfl⟩
  · rintro ⟨hs, hall, hleast, rfl⟩
    exact ⟨(w, rest), ⟨⟨hs, hall⟩, hleast⟩, rfl, rfl, rfl⟩

theorem mem_anchor (P : Prop) [Decidable P] (s : Text) (m : Match) :
    m ∈ (if P then [(⟨[], [], s⟩ : Match)] else []) ↔
      s = m.consumed ++ m.rest ∧ m.consumed = [] ∧ m.groups = [] ∧ P := by
  obtain ⟨w, groups, rest⟩ := m
  by_cases hP : P
  · simp only [hP, if_true, List.mem_singleton, Match.mk.injEq, and_true]
    constructor
    · rintro ⟨rfl, rfl, rfl⟩
      exact ⟨rfl, rfl, rfl⟩
    · rintro ⟨rfl, rfl, rfl⟩
      exact ⟨rfl, rfl, rfl⟩
  · simp [hP]

/-- The engine enumerates exactly the language of the pattern. -/
theorem mem_run (r : Regex) (before : Option Char) (s : Text) (m : Match) :
    m ∈ r.run before s ↔
      s = m.consumed ++ m.rest ∧ r.Accepts before m.consumed m.rest m.groups := by
  induction r generalizing before s m with
  | cls p => exact mem_run_cls p before s m
  | rep greedy least p => exact mem_run_rep greedy least p before s m
  | seq first second ihFirst ihSecond =>
      simp only [run, List.mem_flatMap, List.mem_map, ihFirst, ihSecond, Accepts]
      constructor
      · rintro ⟨m₁, ⟨rfl, h₁⟩, m₂, ⟨hrest, h₂⟩, rfl⟩
        refine ⟨by simp [hrest], m₁.consumed, m₂.consumed, m₁.groups, m₂.groups,
          rfl, rfl, ?_, h₂⟩
        exact hrest ▸ h₁
      · rintro ⟨rfl, w₁, w₂, groups₁, groups₂, hw, hgroups, h₁, h₂⟩
        refine ⟨⟨w₁, groups₁, w₂ ++ m.rest⟩, ⟨by simp [hw], h₁⟩,
          ⟨w₂, groups₂, m.rest⟩, ⟨rfl, h₂⟩, ?_⟩
        rw [← hw, ← hgroups]
  | group body ih =>
      simp only [run, List.mem_map, ih, Accepts]
      constructor
      · rintro ⟨m₁, ⟨hs, h₁⟩, rfl⟩
        exact ⟨hs, m₁.groups, h₁, rfl⟩
      · rintro ⟨hs, inner, h₁, hgroups⟩
        refine ⟨⟨m.consumed, inner, m.rest⟩, ⟨hs, h₁⟩, ?_⟩
        rw [← hgroups]
  | lineStart => exact mem_anchor _ s m
  | lineEnd =>
      rw [run, mem_anchor]
      constructor
      · rintro ⟨hs, hw, hgroups, hend⟩
        rw [hw, List.nil_append] at hs
        exact ⟨by simp [hs, hw], hw, hgroups, hs ▸ hend⟩
      · rintro ⟨hs, hw, hgroups, hend⟩
        rw [hw, List.nil_append] at hs
        exact ⟨by simp [hs, hw], hw, hgroups, hs ▸ hend⟩

theorem accepts_lit {s : Text} {before : Option Char} {w rest : Text} {groups : List Text} :
    (lit s).Accepts before w rest groups ↔ w = s ∧ groups = [] := by
  induction s using lit.induct generalizing before w rest groups with
  | case1 =>
      simp only [lit, Accepts, Bool.false_eq_true, imp_false, Nat.zero_le, true_and,
        List.eq_nil_iff_forall_not_mem]
  | case2 c =>
      simp only [lit, Accepts, beq_iff_eq, exists_eq_right]
  | case3 c s hs ih =>
      rw [lit.eq_3 c s hs]
      simp only [Accepts, ih, beq_iff_eq, exists_eq_right]
      constructor
      · rintro ⟨w₁, w₂, groups₁, groups₂, rfl, rfl, ⟨rfl, rfl⟩, rfl, rfl⟩
        exact ⟨rfl, rfl⟩
      · rintro ⟨rfl, rfl⟩
        exact ⟨[c], s, [], [], rfl, rfl, ⟨rfl, rfl⟩, rfl, rfl⟩

/-! ## Scanning -/

theorem mem_of_first {r : Regex} {before : Option Char} {s : Text} {m : Match}
    (h : r.first before s = some m) :
    s = m.consumed ++ m.rest ∧ r.Accepts before m.consumed m.rest m.groups :=
  (mem_run r before s m).mp (List.mem_of_mem_head? h)

theorem mem_scanFrom {r : Regex} {m : Match} :
    ∀ (skip : Nat) (before : Option Char) (s : Text),
      m ∈ scanFrom r skip before s →
      ∃ pre last, s = pre ++ (m.consumed ++ m.rest) ∧
        r.Accepts last m.consumed m.rest m.groups
  | skip, before, [], h => by simp [scanFrom] at h
  | skip + 1, before, c :: s, h => by
      obtain ⟨pre, last, hs, haccepts⟩ :=
        mem_scanFrom skip (some c) s h
      exact ⟨c :: pre, last, by simp [hs], haccepts⟩
  | 0, before, c :: s, h => by
      simp only [scanFrom] at h
      cases hfirst : r.first before (c :: s) with
      | none =>
          rw [hfirst] at h
          obtain ⟨pre, last, hs, haccepts⟩ := mem_scanFrom 0 (some c) s h
          exact ⟨c :: pre, last, by simp [hs], haccepts⟩
      | some m' =>
          rw [hfirst] at h
          rcases List.mem_cons.mp h with rfl | h
          · obtain ⟨hs, haccepts⟩ := mem_of_first hfirst
            exact ⟨[], before, hs, haccepts⟩
          · obtain ⟨pre, last, hs, haccepts⟩ :=
              mem_scanFrom (m'.consumed.length - 1) (some c) s h
            exact ⟨c :: pre, last, by simp [hs], haccepts⟩

theorem mem_findall {r : Regex} {s : Text} {m : Match} (h : m ∈ r.findall s) :
    ∃ pre last, s = pre ++ (m.consumed ++ m.rest) ∧
      r.Accepts last m.consumed m.rest m.groups :=
  mem_scanFrom 0 none s h

theorem first_isSome {r : Regex} {before : Option Char} {w rest : Text} {groups : List Text}
    (h : r.Accepts before w rest groups) : (r.first before (w ++ rest)).isSome = true := by
  have hmem : (⟨w, groups, rest⟩ : Match) ∈ r.run before (w ++ rest) :=
    (mem_run r before _ _).mpr ⟨rfl, h⟩
  rw [first, List.isSome_head?]
  exact List.ne_nil_of_mem hmem

/-- A text with a stretch that matches wherever it stands is not passed over. -/
theorem search_isSome {r : Regex} {w rest : Text} {groups : List Text} (pre : Text)
    (hne : w ≠ []) (h : ∀ before, r.Accepts before w rest groups) :
    (r.search (pre ++ (w ++ rest))).isSome = true := by
  have hscan : ∀ before, scanFrom r 0 before (pre ++ (w ++ rest)) ≠ [] := by
    induction pre with
    | nil =>
        intro before
        obtain ⟨c, w, rfl⟩ := List.exists_cons_of_ne_nil hne
        obtain ⟨m, hm⟩ := Option.isSome_iff_exists.mp (first_isSome (h before))
        simp only [List.nil_append, List.cons_append] at hm ⊢
        simp [scanFrom, hm]
    | cons c pre ih =>
        intro before
        rw [List.cons_append, scanFrom]
        split
        · simp
        · exact ih (some c)
  rw [search, findall, List.isSome_head?]
  exact hscan none

theorem infix_of_mem_findall {r : Regex} {s : Text} {m : Match}
    (h : m ∈ r.findall s) : m.consumed <:+: s := by
  obtain ⟨pre, -, hs, -⟩ := mem_findall h
  exact ⟨pre, m.rest, by simp [hs]⟩

/-! ## Deterministic stretches -/

theorem spans_append {p : Char → Bool} {w rest : Text} (hw : ∀ c ∈ w, p c = true)
    (hrest : ∀ c ∈ rest.head?, p c = false) :
    ∃ shorter, spans p (w ++ rest) = shorter ++ [(w, rest)] := by
  induction w with
  | nil =>
      cases rest with
      | nil => exact ⟨[], rfl⟩
      | cons c rest =>
          have hc : p c = false := hrest c rfl
          exact ⟨[], by simp [spans, hc]⟩
  | cons c w ih =>
      obtain ⟨shorter, hspans⟩ := ih fun d hd => hw d (by simp [hd])
      refine ⟨([], c :: w ++ rest) ::
        shorter.map fun cut => (c :: cut.1, cut.2), ?_⟩
      simp [spans, hw c (by simp), hspans]

theorem first_rep {p : Char → Bool} {least : Nat} {w rest : Text}
    (before : Option Char) (hw : ∀ c ∈ w, p c = true)
    (hrest : ∀ c ∈ rest.head?, p c = false) (hleast : least ≤ w.length) :
    (rep true least p).first before (w ++ rest) = some ⟨w, [], rest⟩ := by
  obtain ⟨shorter, hspans⟩ := spans_append hw hrest
  have hcuts : ((spans p (w ++ rest)).filter fun cut => least ≤ cut.1.length) =
      shorter.filter (fun cut => least ≤ cut.1.length) ++ [(w, rest)] := by
    simp [hspans, hleast]
  simp only [first, run, if_true, hcuts, List.reverse_append]
  rfl

theorem first_cls {p : Char → Bool} {c : Char} (before : Option Char) (s : Text)
    (hc : p c = true) : (cls p).first before (c :: s) = some ⟨[c], [], s⟩ := by
  simp [first, run, hc]

theorem first_seq {r r' : Regex} {before : Option Char} {s : Text} {m m' : Match}
    (h : r.first before s = some m)
    (h' : r'.first (lastOr before m.consumed) m.rest = some m') :
    (seq r r').first before s =
      some ⟨m.consumed ++ m'.consumed, m.groups ++ m'.groups, m'.rest⟩ := by
  obtain ⟨others, hrun⟩ := List.head?_eq_some_iff.mp h
  obtain ⟨others', hrun'⟩ := List.head?_eq_some_iff.mp h'
  simp [first, run, hrun, hrun']

theorem first_seq_eq_none {r r' : Regex} {before : Option Char} {s : Text}
    (h : r.first before s = none) : (seq r r').first before s = none := by
  have hrun : r.run before s = [] := List.head?_eq_none_iff.mp h
  simp [first, run, hrun]

theorem first_rep_eq_none {p : Char → Bool} {greedy : Bool} {c : Char} {s : Text}
    (before : Option Char) (hc : p c = false) :
    (rep greedy 1 p).first before (c :: s) = none := by
  simp [first, run, spans, hc]

theorem first_cls_seq (p : Char → Bool) (r : Regex) (before : Option Char) (c : Char) (s : Text) :
    (seq (cls p) r).first before (c :: s) =
      if p c then (r.first (some c) s).map fun m => ⟨c :: m.consumed, m.groups, m.rest⟩
      else none := by
  by_cases hc : p c = true <;> simp [first, run, hc, lastOr, List.head?_map]

/-! ## Lazy runs -/

/-- The shortest run of one class in front of a character of another one. -/
def upTo (p q : Char → Bool) : Regex := .seq (.rep false 0 p) (.cls q)

theorem first_upTo_cons (p q : Char → Bool) (before : Option Char) (c : Char) (s : Text) :
    (upTo p q).first before (c :: s) =
      if q c then some ⟨[c], [], s⟩
      else if p c then
        ((upTo p q).first before s).map fun m => ⟨c :: m.consumed, m.groups, m.rest⟩
      else none := by
  have hrun : ∀ t, (upTo p q).run before t = (spans p t).flatMap fun cut =>
      match cut.2 with
      | [] => []
      | d :: rest => if q d then [⟨cut.1 ++ [d], [], rest⟩] else [] := by
    intro t
    simp only [upTo, run, Nat.zero_le, decide_true, List.filter_true, Bool.false_eq_true, if_false,
      List.flatMap_map]
    refine List.flatMap_congr fun cut _ => ?_
    cases cut.2 with
    | nil => rfl
    | cons d rest => by_cases hd : q d = true <;> simp [hd]
  simp only [first, hrun, spans, List.flatMap_cons]
  by_cases hq : q c = true
  · simp [hq]
  · by_cases hp : p c = true
    · simp only [hq, hp, if_true, if_false, List.nil_append, List.flatMap_map,
        Bool.false_eq_true]
      rw [← List.head?_map, List.map_flatMap]
      congr 1
      refine List.flatMap_congr fun cut _ => ?_
      cases cut.2 with
      | nil => rfl
      | cons d rest => by_cases hd : q d = true <;> simp [hd]
    · simp [hq, hp]

theorem first_upTo {p q : Char → Bool} {w rest : Text} {d : Char} (before : Option Char)
    (hw : ∀ c ∈ w, p c = true ∧ q c = false) (hd : q d = true) :
    (upTo p q).first before (w ++ d :: rest) = some ⟨w ++ [d], [], rest⟩ := by
  induction w with
  | nil => simp [first_upTo_cons, hd]
  | cons c w ih =>
      obtain ⟨⟨hp, hq⟩, hrest⟩ := List.forall_mem_cons.mp hw
      simp [first_upTo_cons, hp, hq, ih hrest]

theorem exists_of_first_upTo {p q : Char → Bool} {before : Option Char} {s : Text} {m : Match}
    (h : (upTo p q).first before s = some m) :
    ∃ w d, m.consumed = w ++ [d] ∧ (∀ c ∈ w, p c = true ∧ q c = false) ∧ q d = true := by
  induction s generalizing m with
  | nil => simp [upTo, first, run, spans] at h
  | cons c s ih =>
      rw [first_upTo_cons] at h
      split at h
      case isTrue hq =>
        obtain rfl := Option.some.inj h
        exact ⟨[], c, rfl, by simp, hq⟩
      case isFalse hq =>
        split at h
        case isFalse => contradiction
        case isTrue hp =>
          obtain ⟨m', hm', rfl⟩ := Option.map_eq_some_iff.mp h
          obtain ⟨w, d, hconsumed, hw, hd⟩ := ih hm'
          refine ⟨c :: w, d, by simp [hconsumed], List.forall_mem_cons.mpr ⟨?_, hw⟩, hd⟩
          exact ⟨hp, by simpa using hq⟩

theorem lastOr_cons (before : Option Char) (c : Char) (w : Text) :
    lastOr before (c :: w) = lastOr (some c) w := by
  cases w with
  | nil => rfl
  | cons d w => simp [lastOr, List.getLast?_cons]

theorem scanFrom_length (r : Regex) (before : Option Char) (w s : Text) :
    scanFrom r w.length before (w ++ s) = scanFrom r 0 (lastOr before w) s := by
  induction w generalizing before with
  | nil => simp [lastOr]
  | cons c w ih =>
      simpa [scanFrom, lastOr_cons before] using ih (some c)

theorem scanFrom_of_first {r : Regex} {before : Option Char} {consumed rest : Text}
    {groups : List Text} (h : r.first before (consumed ++ rest) = some ⟨consumed, groups, rest⟩)
    (hne : consumed ≠ []) :
    scanFrom r 0 before (consumed ++ rest) =
      ⟨consumed, groups, rest⟩ :: scanFrom r 0 (lastOr before consumed) rest := by
  cases consumed with
  | nil => contradiction
  | cons c w =>
      simp only [List.cons_append] at h ⊢
      rw [scanFrom, h]
      have := scanFrom_length r before (c :: w) rest
      simp only [List.length_cons, List.cons_append, scanFrom] at this
      simp [this]

/-- A stretch is passed over if no match starts in it. -/
theorem scanFrom_skip {r : Regex} {u v : Text} (before : Option Char)
    (h : ∀ a c b, u = a ++ c :: b → r.first (lastOr before a) (c :: (b ++ v)) = none) :
    scanFrom r 0 before (u ++ v) = scanFrom r 0 (lastOr before u) v := by
  induction u generalizing before with
  | nil => rfl
  | cons c u ih =>
      have hfirst : r.first before (c :: (u ++ v)) = none := h [] c u rfl
      rw [List.cons_append, scanFrom, hfirst, lastOr_cons]
      apply ih
      intro a d b hu
      rw [← lastOr_cons before]
      exact h (c :: a) d b (by simp [hu])

theorem search_of_first {r : Regex} {u s : Text} {m : Match} (hne : s ≠ [])
    (hskip : ∀ a c b, u = a ++ c :: b → r.first (lastOr none a) (c :: (b ++ s)) = none)
    (h : r.first (lastOr none u) s = some m) : r.search (u ++ s) = some m := by
  obtain ⟨c, s, rfl⟩ := List.exists_cons_of_ne_nil hne
  rw [search, findall, scanFrom_skip none hskip, scanFrom, h]
  rfl

/-- A search reports the match at the first place where one starts. -/
theorem exists_first_of_search {r : Regex} {s : Text} {m : Match} (h : r.search s = some m) :
    ∃ u v, s = u ++ v ∧ r.first (lastOr none u) v = some m ∧
      ∀ a c b, u = a ++ c :: b → r.first (lastOr none a) (c :: (b ++ v)) = none := by
  rw [search, findall] at h
  generalize none = before at h ⊢
  induction s generalizing before with
  | nil => simp [scanFrom] at h
  | cons c s ih =>
      cases hfirst : r.first before (c :: s) with
      | some m' =>
          obtain rfl : m' = m := by simpa [scanFrom, hfirst] using h
          exact ⟨[], c :: s, rfl, hfirst, by simp⟩
      | none =>
          rw [scanFrom, hfirst] at h
          obtain ⟨u, v, rfl, hfound, hskip⟩ := ih (some c) h
          refine ⟨c :: u, v, rfl, by rwa [lastOr_cons], fun a d b hu => ?_⟩
          cases a with
          | nil =>
              obtain ⟨rfl, rfl⟩ := List.cons.inj hu
              exact hfirst
          | cons e a =>
              obtain ⟨rfl, rfl⟩ := List.cons.inj hu
              rw [lastOr_cons]
              exact hskip a d b rfl

/-- What every match at a position is, the engine reports. -/
theorem first_of_unique {r : Regex} {before : Option Char} {w rest : Text} {groups : List Text}
    (haccepts : r.Accepts before w rest groups)
    (hunique : ∀ w' rest' groups', w' ++ rest' = w ++ rest → r.Accepts before w' rest' groups' →
      w' = w ∧ groups' = groups) :
    r.first before (w ++ rest) = some ⟨w, groups, rest⟩ := by
  obtain ⟨⟨w', groups', rest'⟩, hm⟩ := Option.isSome_iff_exists.mp (first_isSome haccepts)
  obtain ⟨hs, haccepts'⟩ := mem_of_first hm
  obtain ⟨rfl, rfl⟩ := hunique w' rest' groups' hs.symm haccepts'
  obtain rfl : rest = rest' := List.append_cancel_left hs
  exact hm

theorem first_lit (before : Option Char) (s rest : Text) :
    (lit s).first before (s ++ rest) = some ⟨s, [], rest⟩ :=
  first_of_unique (accepts_lit.mpr ⟨rfl, rfl⟩) fun _ _ _ _ h => accepts_lit.mp h

/-- A text that matches as a whole and in no other way is what a search finds in it. -/
theorem search_of_unique {r : Regex} {w : Text} {groups : List Text} (hne : w ≠ [])
    (haccepts : r.Accepts none w [] groups)
    (hunique : ∀ w' rest' groups', w' ++ rest' = w → r.Accepts none w' rest' groups' →
      rest' = [] ∧ groups' = groups) :
    r.search w = some ⟨w, groups, []⟩ := by
  have hfirst : r.first none (w ++ []) = some ⟨w, groups, []⟩ := by
    apply first_of_unique haccepts
    intro w' rest' groups' hw haccepts'
    rw [List.append_nil] at hw
    obtain ⟨rfl, rfl⟩ := hunique w' rest' groups' hw haccepts'
    exact ⟨by simpa using hw, rfl⟩
  rw [List.append_nil] at hfirst
  exact search_of_first (u := []) hne (by simp) hfirst

end Regex

end TdvfFuzz.Foundation
