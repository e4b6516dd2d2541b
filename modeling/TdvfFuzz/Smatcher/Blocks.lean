import TdvfFuzz.Smatcher.Matcher

/-!
# What the reader finds in a report

A report is a list of blocks: an optional status word and TAB, the place of the
finding, and further lines that start with a TAB.  The two patterns run over
the whole text and find each block once.
-/

namespace TdvfFuzz.Smatcher

open TdvfFuzz.Foundation

/-! ## Blocks -/

structure Site where
  path : Text
  line : Text
  func : Text
  path_ne_nil : path ≠ []
  line_ne_nil : line ≠ []
  func_ne_nil : func ≠ []
  words : ∀ c ∈ path ++ func, isSpace c = false
  digits : ∀ c ∈ line, isDecimal c = true
  noCall : ¬ "()".toList <:+: func

namespace Site

def location (site : Site) : Text := site.path ++ ':' :: site.line

/-- `path:line func()` -/
def text (site : Site) : Text := site.location ++ ' ' :: (site.func ++ ['(', ')'])

end Site

structure Block where
  status : Text
  site : Site
  rest : Text
  lines : List Text
  word : ∀ c ∈ status, isSpace c = false
  oneLine : ∀ line ∈ rest :: lines, '\n' ∉ line ∧ '\t' ∉ line

namespace Block

def detail (block : Block) : Text := block.lines.flatMap (['\n', '\t'] ++ ·)

def text (block : Block) : Text :=
  (if block.status = [] then [] else block.status ++ ['\t']) ++
    (block.site.text ++ ' ' :: block.rest) ++ block.detail

/-- `(null)` without a status is left out. -/
def entry (block : Block) : Option Entry :=
  if block.status = [] then
    if block.site.func = "(null)".toList then none
    else some ⟨"unclassified".toList, locationKey block.site.location, block.site.func⟩
  else some ⟨block.status, locationKey block.site.location, block.site.func⟩

theorem entry_location {block : Block} {e : Entry} (h : block.entry = some e) :
    e.location = locationKey block.site.location := by
  unfold entry at h
  split at h
  · split at h
    · simp at h
    · rw [← Option.some.inj h]
  · rw [← Option.some.inj h]

end Block

def reportText (stop : Text) (blocks : List Block) : Text :=
  blocks.flatMap fun block => block.text ++ stop ++ ['\n']

/-! ## The place of a finding -/

theorem notSpace_of_isDecimal {c : Char} (h : isDecimal c = true) : notSpace c = true := by
  by_contra hspace
  have hc : isSpace c = true := by simpa [notSpace] using hspace
  have : 48 ≤ c.toNat ∧ c.toNat ≤ 57 := by
    simpa [isDecimal, Char.isDigit, Char.le_def, UInt32.le_iff_toNat_le] using h
  simp only [isSpace, Bool.or_eq_true, Bool.and_eq_true, decide_eq_true_eq, beq_iff_eq] at hc
  omega

section

variable {site : Site}

theorem Site.location_words (site : Site) : ∀ c ∈ site.location, notSpace c = true := by
  intro c hc
  rcases List.mem_append.mp hc with hc | hc
  · simp [notSpace, site.words c (by simp [hc])]
  · rcases List.mem_cons.mp hc with rfl | hc
    · decide
    · exact notSpace_of_isDecimal (site.digits c hc)

theorem Site.func_words (site : Site) : ∀ c ∈ site.func ++ ['(', ')'], notSpace c = true := by
  intro c hc
  rcases List.mem_append.mp hc with hc | hc
  · simp [notSpace, site.words c (by simp [hc])]
  · rcases List.mem_pair.mp hc with rfl | rfl <;> decide

/-- `(\S+:[0-9]+)`, one blank, and `(\S+)\(\)` -/
def placePattern (blank : Char → Bool) : Regex :=
  .seq (.group (.seq (.rep true 1 notSpace)
    (.seq (.cls (· == ':')) (.rep true 1 isDecimal))))
  (.seq (.cls blank) (.seq (.group (.rep true 1 notSpace)) (Regex.lit "()".toList)))

theorem placePattern_accepts {blank : Char → Bool} {before : Option Char} {w rest : Text}
    {groups : List Text} :
    (placePattern blank).Accepts before w rest groups ↔
      ∃ path line d func, w = path ++ ':' :: line ++ d :: (func ++ ['(', ')']) ∧
        groups = [path ++ ':' :: line, func] ∧ blank d = true ∧
        (∀ c ∈ path, notSpace c = true) ∧ path ≠ [] ∧
        (∀ c ∈ line, isDecimal c = true) ∧ line ≠ [] ∧
        (∀ c ∈ func, notSpace c = true) ∧ func ≠ [] := by
  have hcall : "()".toList = ['(', ')'] := by decide
  constructor
  · rintro ⟨location, w₂, _, _, rfl, rfl,
      ⟨_, ⟨path, w₃, _, _, rfl, rfl, ⟨hpath, hpathLength, rfl⟩,
        colon, line, _, _, rfl, rfl, ⟨⟨c, rfl, hc⟩, rfl⟩, hline, hlineLength, rfl⟩, rfl⟩,
      _, w₄, _, _, rfl, rfl, ⟨⟨d, rfl, hd⟩, rfl⟩,
      func, call, _, _, rfl, rfl, ⟨_, ⟨hfunc, hfuncLength, rfl⟩, rfl⟩, hlit⟩
    obtain rfl : c = ':' := by simpa using hc
    rw [Regex.accepts_lit, hcall] at hlit
    obtain ⟨rfl, rfl⟩ := hlit
    exact ⟨path, line, d, func, by simp, by simp, hd, hpath,
      List.ne_nil_of_length_pos hpathLength, hline, List.ne_nil_of_length_pos hlineLength,
      hfunc, List.ne_nil_of_length_pos hfuncLength⟩
  · rintro ⟨path, line, d, func, rfl, rfl, hd, hpath, hpathNil, hline, hlineNil, hfunc, hfuncNil⟩
    refine ⟨path ++ ':' :: line, d :: (func ++ ['(', ')']), [path ++ ':' :: line], [func],
      rfl, rfl, ⟨[], ⟨path, ':' :: line, [], [], rfl, rfl,
        ⟨hpath, List.length_pos_of_ne_nil hpathNil, rfl⟩,
        [':'], line, [], [], rfl, rfl, ⟨⟨_, rfl, by simp⟩, rfl⟩,
        hline, List.length_pos_of_ne_nil hlineNil, rfl⟩, rfl⟩,
      [d], func ++ ['(', ')'], [], [func], rfl, rfl, ⟨⟨_, rfl, hd⟩, rfl⟩,
      func, ['(', ')'], [func], [], rfl, rfl,
      ⟨[], ⟨hfunc, List.length_pos_of_ne_nil hfuncNil, rfl⟩, rfl⟩, ?_⟩
    rw [Regex.accepts_lit, hcall]
    exact ⟨rfl, rfl⟩

theorem locationPattern_eq : locationPattern = placePattern (· == ' ') := rfl

theorem locationPattern_accepts {before : Option Char} {w rest : Text} {groups : List Text} :
    locationPattern.Accepts before w rest groups ↔
      ∃ path line func, w = path ++ ':' :: line ++ ' ' :: (func ++ ['(', ')']) ∧
        groups = [path ++ ':' :: line, func] ∧
        (∀ c ∈ path, notSpace c = true) ∧ path ≠ [] ∧
        (∀ c ∈ line, isDecimal c = true) ∧ line ≠ [] ∧
        (∀ c ∈ func, notSpace c = true) ∧ func ≠ [] := by
  rw [locationPattern_eq, placePattern_accepts]
  constructor
  · rintro ⟨path, line, d, func, hw, hgroups, hd, hwords⟩
    obtain rfl : d = ' ' := by simpa using hd
    exact ⟨path, line, func, hw, hgroups, hwords⟩
  · rintro ⟨path, line, func, hw, hgroups, hwords⟩
    exact ⟨path, line, ' ', func, hw, hgroups, by simp, hwords⟩

theorem run_location {path line : Text} (hpath : ∀ c ∈ path, notSpace c = true)
    (hline : ∀ c ∈ line, isDecimal c = true) :
    ∀ c ∈ path ++ ':' :: line, notSpace c = true := by
  intro c hc
  rcases List.mem_append.mp hc with hc | hc
  · exact hpath c hc
  · rcases List.mem_cons.mp hc with rfl | hc
    · decide
    · exact notSpace_of_isDecimal (hline c hc)

theorem Site.place_accepts (site : Site) (blank : Char → Bool) (hblank : blank ' ' = true)
    (before : Option Char) (rest : Text) :
    (placePattern blank).Accepts before site.text rest [site.location, site.func] :=
  placePattern_accepts.mpr ⟨site.path, site.line, ' ', site.func, rfl, rfl, hblank,
    fun c hc => by simp [notSpace, site.words c (by simp [hc])], site.path_ne_nil,
    site.digits, site.line_ne_nil,
    fun c hc => by simp [notSpace, site.words c (by simp [hc])], site.func_ne_nil⟩

theorem Site.text_accepts (site : Site) (before : Option Char) (rest : Text) :
    locationPattern.Accepts before site.text rest [site.location, site.func] :=
  site.place_accepts (· == ' ') (by simp) before rest

/-- Without parentheses in the name, the last pair closes the call. -/
theorem eq_of_call_prefix {x y : Text} (hcall : ¬ "()".toList <:+: y)
    (h : x ++ ['(', ')'] <+: y ++ ['(', ')']) : x = y := by
  have hpair : "()".toList = ['(', ')'] := by decide
  obtain ⟨r, hr⟩ := h
  have hreverse := congrArg List.reverse hr
  simp only [List.reverse_append, List.reverse_cons, List.reverse_nil, List.nil_append,
    List.cons_append] at hreverse
  cases hr' : r.reverse with
  | nil => simpa [hr'] using hreverse
  | cons a r' =>
      cases r' with
      | nil => simp [hr'] at hreverse
      | cons b r' =>
          simp only [hr', List.cons_append, List.cons.injEq] at hreverse
          have hy := congrArg List.reverse hreverse.2.2
          simp only [List.reverse_append, List.reverse_cons, List.reverse_reverse,
            List.append_assoc, List.cons_append, List.nil_append] at hy
          exact absurd ⟨x, r'.reverse, by rw [hpair]; simpa using hy⟩ hcall

theorem blank_not_mem_call {func : Text} (h : ∀ c ∈ func, notSpace c = true) :
    ' ' ∉ func ++ ['(', ')'] := by
  intro hmem
  rcases List.mem_append.mp hmem with hmem | hmem
  · exact absurd (h ' ' hmem) (by decide)
  · exact absurd hmem (by decide)

/-- Where a place stands, the pattern matches it and nothing else. -/
theorem Site.place_unique (site : Site) (blank : Char → Bool)
    (hblank : ∀ d, blank d = true → isSpace d = true) {before : Option Char}
    {w rest tail : Text} {groups : List Text} (hw : w ++ rest = site.text ++ ' ' :: tail)
    (h : (placePattern blank).Accepts before w rest groups) :
    w = site.text ∧ groups = [site.location, site.func] := by
  obtain ⟨path, line, d, func, rfl, rfl, hd, hpath, -, hline, -, hfunc, -⟩ :=
    placePattern_accepts.mp h
  have hw' : (path ++ ':' :: line) ++ d :: (func ++ ['(', ')'] ++ rest) =
      site.location ++ ' ' :: (site.func ++ ['(', ')'] ++ ' ' :: tail) := by
    simpa [Site.text] using hw
  -- the run in front of the first blank is the location
  obtain ⟨hlocation, rfl, hcall⟩ :=
    run_unique (run_location hpath hline) site.location_words (by simp [notSpace, hblank d hd])
      (by decide) hw'
  have hfunc' : func = site.func := by
    apply eq_of_call_prefix site.noCall
    rw [← prefix_append_cons_iff _ tail (blank_not_mem_call hfunc), ← hcall]
    exact List.prefix_append _ _
  exact ⟨by rw [hlocation, hfunc', Site.text], by rw [hlocation, hfunc']⟩

theorem Site.unique (site : Site) {before : Option Char} {w rest tail : Text}
    {groups : List Text} (hw : w ++ rest = site.text ++ ' ' :: tail)
    (h : locationPattern.Accepts before w rest groups) :
    w = site.text ∧ groups = [site.location, site.func] :=
  site.place_unique (· == ' ') (by simp; decide) hw h

end

/-! ## Lines that are passed over -/

/-- From a position that `ok` admits, no match starts in the rest of a line. -/
structure PassesLines (r : Regex) (ok : Option Char → Prop) : Prop where
  indent : ok (some '\t')
  space : ∀ before c v, isSpace c = true → r.first before (c :: v) = none
  line : ∀ before p v, ok before → '\n' ∉ p → '\t' ∉ p →
    Regex.scanFrom r 0 before (p ++ '\n' :: v) = Regex.scanFrom r 0 (some '\n') v

theorem PassesLines.tail {r : Regex} {ok : Option Char → Prop} (hr : PassesLines r ok)
    {stop : Text} (hstop : '\n' ∉ stop ∧ '\t' ∉ stop) (v : Text) :
    ∀ (lines : List Text) (before : Option Char) (p : Text), ok before →
      (∀ line ∈ p :: lines, '\n' ∉ line ∧ '\t' ∉ line) →
      Regex.scanFrom r 0 before
        (p ++ (lines.flatMap (['\n', '\t'] ++ ·) ++ (stop ++ '\n' :: v))) =
        Regex.scanFrom r 0 (some '\n') v
  | [], before, p, hok, hlines => by
      obtain ⟨hp, -⟩ := List.forall_mem_cons.mp hlines
      have := hr.line before (p ++ stop) v hok (by simp [hp, hstop]) (by simp [hp, hstop])
      simpa using this
  | line :: lines, before, p, hok, hlines => by
      obtain ⟨hp, hlines⟩ := List.forall_mem_cons.mp hlines
      have htext : p ++ ((line :: lines).flatMap (['\n', '\t'] ++ ·) ++ (stop ++ '\n' :: v)) =
          p ++ '\n' :: '\t' :: (line ++
            (lines.flatMap (['\n', '\t'] ++ ·) ++ (stop ++ '\n' :: v))) := by
        simp
      rw [htext, hr.line before p _ hok hp.1 hp.2, Regex.scanFrom,
        hr.space _ '\t' _ (by decide)]
      exact PassesLines.tail hr hstop v lines (some '\t') line hr.indent hlines

theorem classified_accepts {before : Option Char} {w rest : Text} {groups : List Text}
    (h : classifiedPattern.Accepts before w rest groups) :
    ∃ status place places last, w = status ++ '\t' :: place ∧ groups = status :: places ∧
      (∀ c ∈ status, notSpace c = true) ∧ status ≠ [] ∧
      locationPattern.Accepts last place rest places := by
  obtain ⟨status, w₂, _, _, rfl, rfl, ⟨_, ⟨hstatus, hlength, rfl⟩, rfl⟩,
    tab, place, _, places, rfl, rfl, ⟨⟨c, rfl, hc⟩, rfl⟩, hplace⟩ := h
  obtain rfl : c = '\t' := by simpa using hc
  exact ⟨status, place, places, _, by simp, by simp, hstatus,
    List.ne_nil_of_length_pos hlength, hplace⟩

theorem classified_of_place {status place rest : Text} {places : List Text}
    (before : Option Char) (hstatus : ∀ c ∈ status, notSpace c = true) (hne : status ≠ [])
    (h : ∀ last, locationPattern.Accepts last place rest places) :
    classifiedPattern.Accepts before (status ++ '\t' :: place) rest (status :: places) :=
  ⟨status, '\t' :: place, [status], places, rfl, rfl,
    ⟨[], ⟨hstatus, List.length_pos_of_ne_nil hne, rfl⟩, rfl⟩,
    ['\t'], place, [], places, rfl, rfl, ⟨⟨_, rfl, by simp⟩, rfl⟩, h _⟩

theorem unclassified_accepts {before : Option Char} {w rest : Text} {groups : List Text} :
    unclassifiedPattern.Accepts before w rest groups ↔
      (before = none ∨ before = some '\n') ∧ locationPattern.Accepts before w rest groups := by
  constructor
  · rintro ⟨_, place, _, places, rfl, rfl, ⟨rfl, rfl, hstart⟩, hplace⟩
    exact ⟨hstart, hplace⟩
  · rintro ⟨hstart, hplace⟩
    exact ⟨[], w, [], groups, rfl, rfl, ⟨rfl, rfl, hstart⟩, hplace⟩

/-- A match starts with a word, which ends at a TAB or at a blank. -/
theorem first_eq_none {r : Regex} {sep : Char} {before : Option Char} {u t : Text} {c : Char}
    (hword : ∀ w rest groups, r.Accepts before w rest groups →
      ∃ x y, w = x ++ sep :: y ∧ x ≠ [] ∧ ∀ d ∈ x, notSpace d = true)
    (hsep : notSpace sep = false) (hu : ∀ d ∈ u, notSpace d = true) (hc : notSpace c = false)
    (hne : u = [] ∨ c ≠ sep) : r.first before (u ++ c :: t) = none := by
  by_contra hfirst
  obtain ⟨m, hm⟩ := Option.ne_none_iff_exists'.mp hfirst
  obtain ⟨hs, haccepts⟩ := Regex.mem_of_first hm
  obtain ⟨x, y, hw, hx, hxs⟩ := hword _ _ _ haccepts
  have hsame : u ++ c :: t = x ++ sep :: (y ++ m.rest) := by rw [hs, hw]; simp
  obtain ⟨rfl, rfl, -⟩ := run_unique hu hxs hc hsep hsame
  rcases hne with h | h
  · exact hx h
  · exact h rfl

theorem classified_word {before : Option Char} (w rest : Text) (groups : List Text)
    (h : classifiedPattern.Accepts before w rest groups) :
    ∃ x y, w = x ++ '\t' :: y ∧ x ≠ [] ∧ ∀ d ∈ x, notSpace d = true := by
  obtain ⟨status, place, _, _, rfl, -, hstatus, hne, -⟩ := classified_accepts h
  exact ⟨status, place, rfl, hne, hstatus⟩

theorem unclassified_word {before : Option Char} (w rest : Text) (groups : List Text)
    (h : unclassifiedPattern.Accepts before w rest groups) :
    ∃ x y, w = x ++ ' ' :: y ∧ x ≠ [] ∧ ∀ d ∈ x, notSpace d = true := by
  obtain ⟨path, line, func, rfl, -, hpath, -, hline, -, -⟩ :=
    locationPattern_accepts.mp (unclassified_accepts.mp h).2
  exact ⟨path ++ ':' :: line, func ++ ['(', ')'], rfl, by simp, run_location hpath hline⟩

theorem classified_space (before : Option Char) (c : Char) (v : Text) (hc : isSpace c = true) :
    classifiedPattern.first before (c :: v) = none :=
  first_eq_none (u := []) classified_word (by decide) (by simp) (by simp [notSpace, hc]) (.inl rfl)

theorem unclassified_space (before : Option Char) (c : Char) (v : Text) (hc : isSpace c = true) :
    unclassifiedPattern.first before (c :: v) = none :=
  first_eq_none (u := []) unclassified_word (by decide) (by simp) (by simp [notSpace, hc])
    (.inl rfl)

theorem unclassified_inside {before : Option Char} (s : Text) (hnone : before ≠ none)
    (hnewline : before ≠ some '\n') : unclassifiedPattern.first before s = none := by
  by_contra hfirst
  obtain ⟨m, hm⟩ := Option.ne_none_iff_exists'.mp hfirst
  obtain ⟨-, haccepts⟩ := Regex.mem_of_first hm
  rcases (unclassified_accepts.mp haccepts).1 with h | h
  · exact hnone h
  · exact hnewline h

theorem classified_passes : PassesLines classifiedPattern fun _ => True where
  indent := trivial
  space := classified_space
  line before p v _ _ htab := by
    rw [Regex.scanFrom_skip, Regex.scanFrom, classified_space _ _ _ (by decide)]
    intro a c b hp
    have hnewline : notSpace '\n' = false := by decide
    obtain ⟨u, e, t, heq, hu, he, hmem⟩ := exists_run hnewline (c :: b) v
    rw [List.cons_append] at heq
    rw [heq]
    refine first_eq_none classified_word (by decide) hu he (.inr ?_)
    rintro rfl
    rcases hmem with hmem | hmem
    · exact htab (hp ▸ List.mem_append_right a hmem)
    · simp at hmem

theorem lastOr_some {d : Char} {a : Text} (hd : d ≠ '\n') (ha : '\n' ∉ a) :
    ∃ e, Regex.lastOr (some d) a = some e ∧ e ≠ '\n' := by
  cases hlast : a.getLast? with
  | none => exact ⟨d, by simp [Regex.lastOr, hlast], hd⟩
  | some e =>
      refine ⟨e, by simp [Regex.lastOr, hlast], ?_⟩
      rintro rfl
      exact ha (List.mem_of_getLast? hlast)

theorem unclassified_passes :
    PassesLines unclassifiedPattern fun before => ∃ d, before = some d ∧ d ≠ '\n' where
  indent := ⟨'\t', rfl, by decide⟩
  space := unclassified_space
  line before p v hbefore hnewline _ := by
    obtain ⟨d, rfl, hd⟩ := hbefore
    rw [Regex.scanFrom_skip, Regex.scanFrom, unclassified_space _ _ _ (by decide)]
    intro a c b hp
    obtain ⟨e, he, hne⟩ := lastOr_some (a := a) hd fun h => hnewline (by simp [hp, h])
    exact unclassified_inside _ (by simp [he]) (by simp [he, hne])

/-! ## The whole report -/

section

variable {stop : Text}

theorem Site.text_eq (site : Site) :
    site.text = (site.location ++ ' ' :: (site.func ++ ['('])) ++ [')'] := by
  simp [text]

theorem Site.text_clean (site : Site) : '\n' ∉ site.text ∧ '\t' ∉ site.text := by
  have hwords : ∀ c, isSpace c = true → c ≠ ' ' → c ∉ site.text := by
    intro c hc hblank hmem
    have hlocation : c ∉ site.location := fun h => by
      simpa [notSpace, hc] using site.location_words c h
    have hfunc : c ∉ site.func ++ ['(', ')'] := fun h => by
      simpa [notSpace, hc] using site.func_words c h
    rcases List.mem_append.mp hmem with h | h
    · exact hlocation h
    · rcases List.mem_cons.mp h with h | h
      · exact hblank h
      · exact hfunc h
  exact ⟨hwords _ (by decide) (by decide), hwords _ (by decide) (by decide)⟩

theorem Block.oneLine_place (block : Block) :
    ∀ line ∈ (block.site.text ++ ' ' :: block.rest) :: block.lines,
      '\n' ∉ line ∧ '\t' ∉ line := by
  obtain ⟨hrest, hlines⟩ := List.forall_mem_cons.mp block.oneLine
  rw [List.forall_mem_cons]
  refine ⟨?_, hlines⟩
  have := block.site.text_clean
  simp [this, hrest]

theorem Block.status_words (block : Block) : ∀ c ∈ block.status, notSpace c = true :=
  fun c hc => by simp [notSpace, block.word c hc]

theorem reportText_cons (stop : Text) (block : Block) (blocks : List Block) :
    reportText stop (block :: blocks) =
      (if block.status = [] then [] else block.status ++ ['\t']) ++
        ((block.site.text ++ ' ' :: block.rest) ++
          (block.lines.flatMap (['\n', '\t'] ++ ·) ++
            (stop ++ '\n' :: reportText stop blocks))) := by
  simp [reportText, Block.text, Block.detail]

theorem first_classified (block : Block) (before : Option Char) (tail : Text)
    (hstatus : block.status ≠ []) :
    classifiedPattern.first before
        ((block.status ++ '\t' :: block.site.text) ++ ' ' :: tail) =
      some ⟨block.status ++ '\t' :: block.site.text,
        [block.status, block.site.location, block.site.func], ' ' :: tail⟩ := by
  have htab : notSpace '\t' = false := by decide
  apply Regex.first_of_unique
  · exact classified_of_place before block.status_words hstatus fun _ =>
      block.site.text_accepts _ _
  · intro w' rest' groups' hsame haccepts
    obtain ⟨status, place, places, last, rfl, rfl, hwords, -, hplace⟩ :=
      classified_accepts haccepts
    have hsame' : status ++ '\t' :: (place ++ rest') =
        block.status ++ '\t' :: (block.site.text ++ ' ' :: tail) := by
      simpa using hsame
    obtain ⟨rfl, -, htail⟩ := run_unique hwords block.status_words htab htab hsame'
    obtain ⟨rfl, rfl⟩ := block.site.unique htail hplace
    exact ⟨rfl, rfl⟩

theorem first_unclassified (site : Site) {before : Option Char} (tail : Text)
    (hstart : before = none ∨ before = some '\n') :
    unclassifiedPattern.first before (site.text ++ ' ' :: tail) =
      some ⟨site.text, [site.location, site.func], ' ' :: tail⟩ := by
  apply Regex.first_of_unique
  · exact unclassified_accepts.mpr ⟨hstart, site.text_accepts _ _⟩
  · intro w' rest' groups' hsame haccepts
    exact site.unique hsame (unclassified_accepts.mp haccepts).2

theorem scan_classified (hstop : '\n' ∉ stop ∧ '\t' ∉ stop) (blocks : List Block)
    (before : Option Char) :
    (Regex.scanFrom classifiedPattern 0 before (reportText stop blocks)).map Match.groups =
      (blocks.filter (·.status ≠ [])).map fun block =>
        [block.status, block.site.location, block.site.func] := by
  induction blocks generalizing before with
  | nil => rfl
  | cons block blocks ih =>
      have htail := classified_passes.tail hstop (reportText stop blocks) block.lines
      rw [reportText_cons]
      by_cases hstatus : block.status = []
      · rw [if_pos hstatus, List.nil_append,
          htail before _ trivial block.oneLine_place, ih,
          List.filter_cons_of_neg (by simp [hstatus])]
      · obtain ⟨hrest, hlines⟩ := List.forall_mem_cons.mp block.oneLine
        have htext : (if block.status = [] then [] else block.status ++ ['\t']) ++
            ((block.site.text ++ ' ' :: block.rest) ++
              (block.lines.flatMap (['\n', '\t'] ++ ·) ++
                (stop ++ '\n' :: reportText stop blocks))) =
            (block.status ++ '\t' :: block.site.text) ++ ((' ' :: block.rest) ++
              (block.lines.flatMap (['\n', '\t'] ++ ·) ++
                (stop ++ '\n' :: reportText stop blocks))) := by
          simp [hstatus]
        rw [htext, List.cons_append,
          Regex.scanFrom_of_first (first_classified block before _ hstatus) (by simp),
          List.map_cons, ← List.cons_append]
        rw [htail _ (' ' :: block.rest) trivial
            (List.forall_mem_cons.mpr ⟨by simp [hrest], hlines⟩), ih,
          List.filter_cons_of_pos (by simpa using hstatus), List.map_cons]

theorem scan_unclassified (hstop : '\n' ∉ stop ∧ '\t' ∉ stop) (blocks : List Block)
    {before : Option Char} (hstart : before = none ∨ before = some '\n') :
    (Regex.scanFrom unclassifiedPattern 0 before (reportText stop blocks)).map Match.groups =
      (blocks.filter (·.status = [])).map fun block => [block.site.location, block.site.func] := by
  induction blocks generalizing before with
  | nil => rfl
  | cons block blocks ih =>
      have htail := unclassified_passes.tail hstop (reportText stop blocks) block.lines
      obtain ⟨hrest, hlines⟩ := List.forall_mem_cons.mp block.oneLine
      rw [reportText_cons]
      by_cases hstatus : block.status = []
      · have hlast : ∃ d, Regex.lastOr before block.site.text = some d ∧ d ≠ '\n' :=
          ⟨')', by rw [block.site.text_eq, Regex.lastOr, List.getLast?_concat]; rfl, by decide⟩
        rw [if_pos hstatus, List.nil_append, List.append_assoc, List.cons_append,
          Regex.scanFrom_of_first (first_unclassified block.site _ hstart) (by simp [Site.text]),
          List.map_cons, ← List.cons_append]
        rw [htail _ (' ' :: block.rest) hlast
            (List.forall_mem_cons.mpr ⟨by simp [hrest], hlines⟩),
          ih (.inr rfl), List.filter_cons_of_pos (by simpa using hstatus), List.map_cons]
      · have htab : notSpace '\t' = false := by decide
        rw [if_neg hstatus, List.append_assoc, List.singleton_append, Regex.scanFrom_skip]
        · rw [Regex.scanFrom, unclassified_space _ _ _ (by decide)]
          dsimp only
          rw [htail (some '\t') _ ⟨'\t', rfl, by decide⟩ block.oneLine_place, ih (.inr rfl),
            List.filter_cons_of_neg (by simpa using hstatus)]
        · intro a c b hab
          cases a with
          | nil =>
              rw [← List.cons_append, ← List.nil_append (c :: b), ← hab]
              exact first_eq_none unclassified_word (by decide) block.status_words htab
                (.inr (by decide))
          | cons d a =>
              have hwords : '\n' ∉ d :: a := fun h => by
                have := block.status_words '\n' (hab ▸ List.mem_append_left _ h)
                simp [notSpace, isSpace] at this
              simp only [List.mem_cons, not_or] at hwords
              obtain ⟨e, he, hne⟩ := lastOr_some (Ne.symm hwords.1) hwords.2
              rw [Regex.lastOr_cons, he]
              exact unclassified_inside _ (by simp) (by simpa using hne)

theorem exists_groups_iff {ms : List Match} {found : List (List Text)}
    (h : ms.map Match.groups = found) {f : Match → Option Entry} {e : Entry}
    (hf : ∀ m m' : Match, m.groups = m'.groups → f m = f m') :
    e ∈ ms.filterMap f ↔ ∃ groups ∈ found, f ⟨[], groups, []⟩ = some e := by
  subst h
  simp only [List.mem_filterMap, List.mem_map, exists_exists_and_eq_and]
  constructor <;> rintro ⟨m, hm, he⟩
  · exact ⟨m, hm, (hf ⟨[], m.groups, []⟩ m rfl).trans he⟩
  · exact ⟨m, hm, (hf m ⟨[], m.groups, []⟩ rfl).trans he⟩

/-- The entries of a report are those of its blocks. -/
theorem parseSmatch_reportText (hstop : '\n' ∉ stop ∧ '\t' ∉ stop) (blocks : List Block) :
    parseSmatch (reportText stop blocks) = (blocks.filterMap Block.entry).toFinset := by
  have hclassified : (classifiedPattern.findall (reportText stop blocks)).map Match.groups =
      _ := scan_classified hstop blocks none
  have hunclassified : (unclassifiedPattern.findall (reportText stop blocks)).map Match.groups =
      _ := scan_unclassified hstop blocks (.inl rfl)
  ext e
  rw [parseSmatch, Finset.mem_union, List.mem_toFinset, List.mem_toFinset, List.mem_toFinset,
    exists_groups_iff hclassified (fun m m' h => by rw [h]),
    exists_groups_iff hunclassified (fun m m' h => by rw [h]), List.mem_filterMap]
  simp only [List.mem_map, List.mem_filter, exists_exists_and_eq_and, ne_eq, decide_not,
    Bool.not_eq_true', decide_eq_false_iff_not, decide_eq_true_eq]
  constructor
  · rintro (⟨block, ⟨hblock, hstatus⟩, he⟩ | ⟨block, ⟨hblock, hstatus⟩, he⟩)
    · exact ⟨block, hblock, by rw [Block.entry, if_neg hstatus]; exact he⟩
    · exact ⟨block, hblock, by rw [Block.entry, if_pos hstatus]; exact he⟩
  · rintro ⟨block, hblock, he⟩
    rw [Block.entry] at he
    split at he
    case isTrue hstatus => exact .inr ⟨block, ⟨hblock, hstatus⟩, he⟩
    case isFalse hstatus => exact .inl ⟨block, ⟨hblock, hstatus⟩, he⟩

end

end TdvfFuzz.Smatcher
