import TdvfFuzz.SeedStats.Naming

/-!
# Seeds and their payloads

Seeds and payloads are found by the first match in a line.  The pairs are right
only if the first match is the name that the line is about.
-/

namespace TdvfFuzz.SeedStats

open TdvfFuzz.Foundation

/-! ## What a log means -/

/-- A line that says from where a seed was copied. -/
structure Announcement where
  intro : Text
  src : Text
  seed : Text
  lineEnd : Text
  deriving DecidableEq, Repr

def Announcement.text (a : Announcement) : Text :=
  a.intro ++ ("copying ".toList ++ (a.src ++ (" -> ".toList ++ (a.seed ++ a.lineEnd))))

/-- Another line may name a seed as well. -/
inductive LogLine where
  | announcement (a : Announcement)
  | message (text : Text) (named : Option Text)
  deriving DecidableEq, Repr

def LogLine.text : LogLine → Text
  | .announcement a => a.text
  | .message text _ => text

def LogLine.seed : LogLine → Option Text
  | .announcement a => some a.seed
  | .message _ named => named

def announcements (log : List LogLine) : List Announcement :=
  log.filterMap fun line =>
    match line with
    | .announcement a => some a
    | .message _ _ => none

def lastComponent (path : Text) : Text := path.rtakeWhile (· ≠ '/')

def source (log : List LogLine) (seed : Text) : Text :=
  (((announcements log).find? fun a => a.seed = seed).map Announcement.src).getD []

def flagged (log : List LogLine) : List (LogLine × Text) :=
  attributes.flatMap fun attr =>
    ((log.zip log.tail).filter fun pair => attr.2 pair.2.text).map fun pair => (pair.1, attr.1)

structure Announcement.WellFormed (a : Announcement) : Prop where
  intro : a.intro ≠ [] ∧ '\n' ∉ a.intro
  src : '\n' ∉ a.src
  payload : "payload_".toList <+: lastComponent a.src
  seed : IsSeed a.seed
  lineEnd : a.lineEnd = [] ∨ a.lineEnd = ['\n']

/-- The lines of the log are what they say. -/
structure Describes (log : List LogLine) (file : Text) : Prop where
  lines : logLines file = log.map LogLine.text
  announced : ∀ a ∈ announcements log, a.WellFormed
  distinct : ((announcements log).map Announcement.seed).Nodup
  messages : ∀ text named, .message text named ∈ log → ∀ seed ∈ named, Names text seed
  first : ∀ line ∈ log.head?, ∀ attr ∈ attributes, attr.2 line.text = false
  follows : ∀ flag ∈ flagged log, ∃ a ∈ announcements log, flag.1.seed = some a.seed

/-- The right payload for the seed that a line names. -/
def rightLine (log : List LogLine) (flag : LogLine × Text) : SeedLine :=
  let seed := flag.1.seed.getD []
  ⟨seed, lastComponent (source log seed), flag.2⟩

def copyLines (log : List LogLine) : List Text :=
  (log.map LogLine.text).filter (Matches copyPattern ·)

/-- The last line that is read as an announcement of the seed says what its payload is. -/
def Decides (log : List LogLine) (seed line : Text) : Prop :=
  ∃ earlier later, copyLines log = earlier ++ line :: later ∧ FirstSeed line seed ∧
    ∀ other ∈ later, ¬ FirstSeed other seed

/-- The first names in the lines are the right ones. -/
structure Readable (log : List LogLine) : Prop where
  payloads : ∀ line ∈ copyLines log, HasPayload line
  seeds : ∀ flag ∈ flagged log, ∀ seed ∈ flag.1.seed, FirstSeed flag.1.text seed
  sources : ∀ flag ∈ flagged log, ∀ seed ∈ flag.1.seed,
    ∃ line, Decides log seed line ∧ FirstPayload line (lastComponent (source log seed))

/-! ## Announcements -/

theorem Announcement.WellFormed.names {a : Announcement} (h : a.WellFormed) :
    Names a.text a.seed := by
  refine ⟨h.seed, a.intro ++ ("copying ".toList ++ (a.src ++ " -> ".toList)), a.lineEnd, ?_, ?_⟩
  · simp [Announcement.text]
  · rcases h.lineEnd with hend | hend <;> simp [hend]

theorem source_seed {log : List LogLine}
    (hdistinct : ((announcements log).map Announcement.seed).Nodup)
    {a : Announcement} (ha : a ∈ announcements log) : source log a.seed = a.src := by
  have hfind : ((announcements log).find? fun b => b.seed = a.seed) = some a := by
    obtain ⟨b, hb⟩ := Option.isSome_iff_exists.mp
      (List.find?_isSome (p := fun b : Announcement => decide (b.seed = a.seed)).mpr
        ⟨a, ha, by simp⟩)
    have hseed : b.seed = a.seed := by simpa using List.find?_some hb
    rw [hb, List.inj_on_of_nodup_map hdistinct (List.mem_of_find?_eq_some hb) ha hseed]
  simp [source, hfind]

/-! ## What the script reads -/

theorem exists_seed_of_copyLine {log : List LogLine} {line : Text} (h : line ∈ copyLines log) :
    ∃ name, firstName seedPattern line = some name := by
  have hmatch : Matches copyPattern line := of_decide_eq_true (List.mem_filter.mp h).2
  obtain ⟨m, hm⟩ := Option.isSome_iff_exists.mp hmatch
  obtain ⟨hline, haccepts⟩ := Regex.mem_of_first hm
  obtain ⟨w₁, _, _, _, hconsumed, -, -, w₂, _, _, _, rfl, -, -, w₃, _, _, _, rfl, -, -,
    w₄, w₅, _, _, rfl, -, -, hseed⟩ := haccepts
  refine Option.ne_none_iff_exists'.mp (firstName_ne_none_iff.mpr
    ⟨w₁ ++ (w₂ ++ (w₃ ++ w₄)), w₅ ++ m.rest, ?_, begins_of_accepts hseed⟩)
  simp [hline, hconsumed]

def entry (line : Text) : Text × Text :=
  ((firstName seedPattern line).getD [], (firstName plPattern line).getD [])

theorem readEntry_eq_ok {line seed payload : Text} :
    readEntry line = .ok (seed, payload) ↔
      firstName seedPattern line = some seed ∧ firstName plPattern line = some payload := by
  unfold readEntry findFirst
  cases firstName seedPattern line <;> cases firstName plPattern line <;>
    simp [pure, Except.pure]

theorem payloads_of_payloadMap {log : List LogLine} {plMap : Dict Text Text}
    (hmap : payloadMap (log.map LogLine.text) = .ok plMap) :
    ∀ line ∈ copyLines log, HasPayload line := by
  intro line hline
  obtain ⟨entries, hentries, -⟩ := bind_eq_ok.mp hmap
  obtain ⟨⟨seed, payload⟩, hread⟩ := exists_ok_of_mapM hentries line hline
  exact exists_payload_iff.mp ⟨payload, (readEntry_eq_ok.mp hread).2⟩

theorem payloadMap_of_payloads {log : List LogLine}
    (hpayloads : ∀ line ∈ copyLines log, HasPayload line) :
    payloadMap (log.map LogLine.text) = .ok (.collect ((copyLines log).map entry)) := by
  refine bind_eq_ok.mpr ⟨_, mapM_eq_ok_map_iff.mpr fun line hline => readEntry_eq_ok.mpr ?_, rfl⟩
  obtain ⟨seed, hseed⟩ := exists_seed_of_copyLine hline
  obtain ⟨payload, hpayload⟩ := exists_payload_iff.mpr (hpayloads line hline)
  exact ⟨by rw [hseed, Option.getD_some], by rw [hpayload, Option.getD_some]⟩

theorem getLast?_filter_eq_some_iff {α : Type} {q : α → Bool} {xs : List α} {x : α} :
    (xs.filter q).getLast? = some x ↔
      ∃ earlier later, xs = earlier ++ x :: later ∧ q x = true ∧ ∀ y ∈ later, q y = false := by
  rw [List.getLast?_filter, List.find?_eq_some_iff_append]
  constructor
  · rintro ⟨hx, later, earlier, hxs, hlater⟩
    refine ⟨earlier.reverse, later.reverse, ?_, hx, by simpa using hlater⟩
    simpa using congrArg List.reverse hxs
  · rintro ⟨earlier, later, rfl, hx, hlater⟩
    exact ⟨hx, later.reverse, earlier.reverse, by simp, by simpa using hlater⟩

theorem get?_payloadMap {log : List LogLine}
    (hpayloads : ∀ line ∈ copyLines log, HasPayload line) {seed payload : Text} :
    (Dict.collect ((copyLines log).map entry)).get? seed = some payload ↔
      ∃ line, Decides log seed line ∧ FirstPayload line payload := by
  have hfilter : ((copyLines log).map entry).filter (fun entry => entry.1 = seed) =
      ((copyLines log).filter fun line => firstName seedPattern line = some seed).map entry := by
    rw [List.filter_map]
    congr 1
    refine List.filter_congr fun line hline => ?_
    obtain ⟨name, hname⟩ := exists_seed_of_copyLine hline
    simp [entry, hname]
  rw [Dict.get?_collect, hfilter, List.getLast?_map, Option.map_map, Option.map_eq_some_iff]
  simp only [getLast?_filter_eq_some_iff, decide_eq_true_eq, decide_eq_false_iff_not,
    firstName_seed_iff, Decides]
  refine exists_congr fun line => and_congr_right fun hdecides => ?_
  obtain ⟨earlier, later, hlog, -⟩ := hdecides
  obtain ⟨name, hname⟩ := exists_payload_iff.mpr (hpayloads line (by simp [hlog]))
  simp [entry, hname, ← firstName_payload_iff]

theorem mapM_lineBefore (attr : Text → Bool) (front rest : List Text) (last : Text) :
    ((rest.zipIdx (front.length + 1)).filter fun line => attr line.1).mapM
        (fun line => lineBefore (front ++ last :: rest) line.2) =
      .ok ((((last :: rest).zip rest).filter fun pair => attr pair.2).map Prod.fst) := by
  induction rest generalizing front last with
  | nil => rfl
  | cons line rest ih =>
      have hrest := ih (front ++ [last]) line
      rw [List.length_append, List.length_singleton, List.append_assoc,
        List.singleton_append] at hrest
      rw [List.zipIdx_cons, List.zip_cons_cons]
      by_cases hattr : attr line
      · have hbefore : lineBefore (front ++ last :: line :: rest) (front.length + 1) =
            .ok last := by
          simp [lineBefore]
        simp only [List.filter_cons, hattr, if_true, List.mapM_cons, hbefore, hrest]
        rfl
      · simp only [List.filter_cons, hattr, Bool.false_eq_true, if_false, hrest]

section

variable {log : List LogLine} {file : Text} (h : Describes log file)

include h

theorem getSeedsFromAttribute_eq {attr : Text × (Text → Bool)} (hattr : attr ∈ attributes) :
    getSeedsFromAttribute (log.map LogLine.text) attr.2 =
      .ok (((log.zip log.tail).filter fun pair => attr.2 pair.2.text).filterMap
        fun pair => firstName seedPattern pair.1.text) := by
  cases log with
  | nil => rfl
  | cons line log =>
      have hfirst : attr.2 line.text = false := h.first line rfl attr hattr
      have hbefore := mapM_lineBefore attr.2 [] (log.map LogLine.text) line.text
      rw [← List.map_cons, List.zip_map, List.filter_map, List.map_map] at hbefore
      rw [getSeedsFromAttribute, List.map_cons, List.zipIdx_cons]
      simp only [List.filter_cons, hfirst, Bool.false_eq_true, if_false]
      refine bind_eq_ok.mpr ⟨_, hbefore, ?_⟩
      rw [List.filterMap_map]
      rfl

/-! ## Pairs -/

omit h in
theorem exists_pair_of_mem_flagged {flag : LogLine × Text} (hflag : flag ∈ flagged log) :
    flag.1 ∈ log := by
  obtain ⟨attr, -, hmem⟩ := List.mem_flatMap.mp hflag
  obtain ⟨pair, hpair, rfl⟩ := List.mem_map.mp hmem
  exact (List.of_mem_zip (List.mem_filter.mp hpair).1).1

theorem exists_name_of_flagged {flag : LogLine × Text} (hflag : flag ∈ flagged log) :
    ∃ seed name, flag.1.seed = some seed ∧ Names flag.1.text seed ∧
      firstName seedPattern flag.1.text = some name := by
  obtain ⟨a, -, hseed⟩ := h.follows flag hflag
  have hmem := exists_pair_of_mem_flagged hflag
  suffices hnames : Names flag.1.text a.seed from
    let ⟨name, hname⟩ := exists_firstName hnames
    ⟨a.seed, name, hseed, hnames, hname⟩
  cases hline : flag.1 with
  | announcement b =>
      rw [hline] at hseed hmem
      have hsame : b.seed = a.seed := Option.some.inj hseed
      rw [← hsame]
      exact (h.announced b (List.mem_filterMap.mpr ⟨_, hmem, rfl⟩)).names
  | message text named =>
      rw [hline] at hseed hmem
      exact h.messages text named hmem a.seed hseed

def printedSeed (flag : LogLine × Text) : Text × Text :=
  ((firstName seedPattern flag.1.text).getD [], flag.2)

theorem attrMap_eq :
    ∃ attrMap, (attributes.mapM fun attr => do
        let seeds ← getSeedsFromAttribute (log.map LogLine.text) attr.2
        return (attr.1, seeds)) = .ok attrMap ∧
      (attrMap.flatMap fun attr => attr.2.map fun seed => (seed, attr.1)) =
        (flagged log).map printedSeed := by
  refine ⟨_, mapM_eq_ok_map_iff.mpr fun attr hattr => bind_eq_ok.mpr
    ⟨_, getSeedsFromAttribute_eq h hattr, rfl⟩, ?_⟩
  have hname : ∀ flag ∈ flagged log,
      firstName seedPattern flag.1.text = some (printedSeed flag).1 := by
    intro flag hflag
    obtain ⟨-, name, -, -, hname⟩ := exists_name_of_flagged h hflag
    rw [printedSeed, hname, Option.getD_some]
  rw [List.flatMap_map, flagged, List.map_flatMap]
  refine List.flatMap_congr fun attr hattr => ?_
  rw [List.map_filterMap, List.map_map, ← List.filterMap_eq_map]
  refine List.filterMap_congr fun pair hpair => ?_
  rw [hname (pair.1, attr.1) (List.mem_flatMap.mpr ⟨attr, hattr, List.mem_map_of_mem hpair⟩)]
  rfl

theorem seedLine_eq_rightLine_iff (hpayloads : ∀ line ∈ copyLines log, HasPayload line)
    {flag : LogLine × Text} (hflag : flag ∈ flagged log) :
    seedLine (.collect ((copyLines log).map entry)) (printedSeed flag).1 (printedSeed flag).2 =
        .ok (rightLine log flag) ↔
      ∀ seed ∈ flag.1.seed, FirstSeed flag.1.text seed ∧
        ∃ line, Decides log seed line ∧ FirstPayload line (lastComponent (source log seed)) := by
  obtain ⟨seed, name, hseed, -, hname⟩ := exists_name_of_flagged h hflag
  simp only [hseed, Option.mem_def, Option.some.injEq, forall_eq', rightLine, printedSeed, hname,
    Option.getD_some, ← firstName_seed_iff, ← get?_payloadMap hpayloads]
  unfold seedLine
  constructor
  · intro hline
    cases hget : (Dict.collect ((copyLines log).map entry)).get? name with
    | none => simp [hget] at hline
    | some payload =>
        simp only [hget, Except.ok.injEq, SeedLine.mk.injEq, and_true] at hline
        obtain ⟨rfl, rfl⟩ := hline
        exact ⟨rfl, hget⟩
  · rintro ⟨rfl, hget⟩
    rw [hget]

/-- The pairs are right exactly if the first names in the lines are the right ones. -/
theorem showSeedStats_eq_ok_iff :
    showSeedStats file = .ok ((flagged log).map (rightLine log)) ↔ Readable log := by
  obtain ⟨attrMap, hattrMap, hseeds⟩ := attrMap_eq h
  have hprint (hpayloads : ∀ line ∈ copyLines log, HasPayload line) :
      printPayloadStats (.collect ((copyLines log).map entry)) attrMap =
          .ok ((flagged log).map (rightLine log)) ↔
        ∀ flag ∈ flagged log, ∀ seed ∈ flag.1.seed, FirstSeed flag.1.text seed ∧
          ∃ line, Decides log seed line ∧ FirstPayload line (lastComponent (source log seed)) := by
    rw [printPayloadStats, hseeds, List.mapM_map, mapM_eq_ok_map_iff]
    exact forall₂_congr fun flag hflag => seedLine_eq_rightLine_iff h hpayloads hflag
  simp only [showSeedStats, h.lines, hattrMap, bind_ok]
  constructor
  · intro hok
    obtain ⟨plMap, hplMap, hok⟩ := bind_eq_ok.mp hok
    have hpayloads := payloads_of_payloadMap hplMap
    obtain rfl := Except.ok.inj ((payloadMap_of_payloads hpayloads).symm.trans hplMap)
    have hright := (hprint hpayloads).mp hok
    exact ⟨hpayloads, fun flag hflag seed hseed => (hright flag hflag seed hseed).1,
      fun flag hflag seed hseed => (hright flag hflag seed hseed).2⟩
  · intro hread
    refine bind_eq_ok.mpr ⟨_, payloadMap_of_payloads hread.payloads, ?_⟩
    exact (hprint hread.payloads).mpr fun flag hflag seed hseed =>
      ⟨hread.seeds flag hflag seed hseed, hread.sources flag hflag seed hseed⟩

end

end TdvfFuzz.SeedStats
