import TdvfFuzz.CrashSummary.Headings
import TdvfFuzz.CrashSummary.Tables

/-!
# What the report says of the scanned logs

The report lists the logs by the tags of their issues.  It lists each of them
once and under its own issue if the tags tell the issues apart, survive the
word splitting and nothing in the headings is an escape of `echo -e`.
-/

namespace TdvfFuzz.CrashSummary

open TdvfFuzz.Foundation

namespace ListedIssue

def issue (block : ListedIssue) : Issue := ⟨block.message, block.cls⟩

end ListedIssue

/-- The report shows every log once, under the issue derived from it. -/
structure Faithful (tools : Tools) (logs : List Text) (s : Issues) : Prop where
  classes : ∀ cls, classLine s cls = classSummary (listed s) cls
  printed : ∀ block ∈ listed s, block.printed = block.literal
  once : ((listed s).flatMap ListedIssue.names).Perm logs
  labelled : ∀ block ∈ listed s, ∀ log ∈ block.names, derived tools log = block.issue
  together : ∀ log ∈ logs, ∀ other ∈ logs,
    (∃ block ∈ listed s, log ∈ block.names ∧ other ∈ block.names) ↔
      derived tools log = derived tools other

def sameIssue (tools : Tools) (logs : List Text) (log : Text) : List Text :=
  logs.filter fun other => derived tools other = derived tools log

structure SoundTags (tools : Tools) (logs : List Text) : Prop where
  separate : ∀ log ∈ logs, ∀ other ∈ logs, log ≠ other → tagOf tools log = tagOf tools other →
    derived tools log = derived tools other ∧ (derived tools log).message ≠ []
  fiveDigits : ∀ log ∈ logs,
    10000 ≤ (tools.cksum (echo ((derived tools log).message ++ ',' ::
      (derived tools log).cls.name))).1
  shown : ∀ log ∈ logs, Shown (derived tools log).message (sameIssue tools logs log)

section

variable {tools : Tools} {logs : List Text} {s : Issues} {t : Groups Text Text Text BugClass}

theorem separates_iff :
    (grouping tools).Separates logs ↔
      ∀ log ∈ logs, ∀ other ∈ logs, log ≠ other → tagOf tools log = tagOf tools other →
        derived tools log = derived tools other ∧ (derived tools log).message ≠ [] := by
  have hissue : ∀ {issue other : Issue},
      issue.message = other.message ∧ issue.cls = other.cls ↔ issue = other := by
    rintro ⟨message, cls⟩ ⟨message', cls'⟩
    simp
  simp only [Grouping.Separates, grouping, ← and_assoc, hissue]

theorem mem_listed (h : Represents s t) {block : ListedIssue} :
    block ∈ listed s ↔ ∃ cls, ∃ tag ∈ shellWords ([' '].intercalate (t.keys cls)),
      block = ⟨cls, tag, t.label tag, [','].intercalate (t.members tag)⟩ := by
  simp only [listed, List.mem_flatMap, List.mem_map, BugClass.mem_classesOrder, true_and, h.keys,
    h.label, h.members, eq_comm]

theorem mem_sameIssue {log other : Text} :
    other ∈ sameIssue tools logs log ↔ other ∈ logs ∧ derived tools other = derived tools log := by
  simp [sameIssue]

/-! ## Sound tags give a faithful report -/

def heading (tools : Tools) (logs : List Text) (log : Text) : ListedIssue where
  cls := (derived tools log).cls
  tag := tagOf tools log
  message := (derived tools log).message
  logs := [','].intercalate (sameIssue tools logs log)

theorem names_heading (hnames : ∀ log ∈ logs, WellNamed log) {log : Text} (hlog : log ∈ logs) :
    (heading tools logs log).names = sameIssue tools logs log :=
  splitOn_names (List.ne_nil_of_mem (mem_sameIssue.mpr ⟨hlog, rfl⟩))
    fun _ hother => hnames _ (mem_sameIssue.mp hother).1

theorem printed_heading_iff (hnames : ∀ log ∈ logs, WellNamed log) {log : Text}
    (hlog : log ∈ logs) :
    (heading tools logs log).printed = (heading tools logs log).literal ↔
      Shown (derived tools log).message (sameIssue tools logs log) :=
  printed_eq_literal_iff rfl (List.ne_nil_of_mem (mem_sameIssue.mpr ⟨hlog, rfl⟩))
    (fun _ hother => hnames _ (mem_sameIssue.mp hother).1) (backslash_not_mem_issueTag _ _)

theorem shellWords_keys (hexact : (grouping tools).Exact logs t)
    (hword : ∀ log ∈ logs, ∀ c ∈ tagOf tools log, isBlank c = false) (cls : BugClass) :
    shellWords ([' '].intercalate (t.keys cls)) = t.keys cls := by
  apply shellWords_intercalate
  intro tag htag
  obtain ⟨log, hlog, rfl, -⟩ := (hexact.mem_keys cls tag).mp htag
  exact ⟨issueTag_ne_nil _ _, hword log hlog⟩

theorem members_eq (hexact : (grouping tools).Exact logs t)
    (hsep : (grouping tools).Separates logs) {log : Text} (hlog : log ∈ logs) :
    t.members (tagOf tools log) = sameIssue tools logs log := by
  rw [hexact.members, sameIssue]
  apply List.filter_congr
  intro other hother
  rw [decide_eq_decide]
  constructor
  · intro htag
    by_cases heq : other = log
    · rw [heq]
    · exact (separates_iff.mp hsep other hother log hlog heq htag).1
  · intro hissue
    simp only [grouping, tagOf, hissue]

theorem mem_listed_iff (h : Represents s t) (hexact : (grouping tools).Exact logs t)
    (hsep : (grouping tools).Separates logs)
    (hword : ∀ log ∈ logs, ∀ c ∈ tagOf tools log, isBlank c = false) {block : ListedIssue} :
    block ∈ listed s ↔ ∃ log ∈ logs, block = heading tools logs log := by
  have hlabel : ∀ log ∈ logs, t.label (tagOf tools log) = (derived tools log).message :=
    hexact.label
  simp only [mem_listed h, shellWords_keys hexact hword, hexact.mem_keys]
  constructor
  · rintro ⟨cls, tag, ⟨log, hlog, rfl, rfl⟩, rfl⟩
    refine ⟨log, hlog, ?_⟩
    change (⟨_, _, t.label (tagOf tools log), [','].intercalate (t.members (tagOf tools log))⟩ :
      ListedIssue) = _
    rw [hlabel log hlog, members_eq hexact hsep hlog]
    rfl
  · rintro ⟨log, hlog, rfl⟩
    refine ⟨_, tagOf tools log, ⟨log, hlog, rfl, rfl⟩, ?_⟩
    rw [hlabel log hlog, members_eq hexact hsep hlog]
    rfl

theorem flatMap_names_listed (h : Represents s t) (hexact : (grouping tools).Exact logs t)
    (hnames : ∀ log ∈ logs, WellNamed log)
    (hword : ∀ log ∈ logs, ∀ c ∈ tagOf tools log, isBlank c = false) :
    (listed s).flatMap ListedIssue.names =
      (BugClass.classesOrder.flatMap t.keys).flatMap t.members := by
  rw [listed, List.flatMap_assoc, List.flatMap_assoc]
  apply List.flatMap_congr
  intro cls _
  rw [List.flatMap_map, h.keys, shellWords_keys hexact hword]
  apply List.flatMap_congr
  intro tag htag
  obtain ⟨log, hlog, rfl, -⟩ := (hexact.mem_keys cls tag).mp htag
  have hmem : ∀ other ∈ t.members ((grouping tools).key log), other ∈ logs := by
    intro other hother
    rw [hexact.members] at hother
    exact List.mem_of_mem_filter hother
  have hne : t.members ((grouping tools).key log) ≠ [] := by
    rw [hexact.members]
    exact List.ne_nil_of_mem (List.mem_filter.mpr ⟨hlog, by simp⟩)
  rw [ListedIssue.names, h.members]
  exact splitOn_names hne fun other hother => hnames other (hmem other hother)

theorem classLine_eq (h : Represents s t) (hexact : (grouping tools).Exact logs t)
    (hword : ∀ log ∈ logs, ∀ c ∈ tagOf tools log, isBlank c = false) (cls : BugClass) :
    classLine s cls = classSummary (listed s) cls := by
  have hne : ∀ tag ∈ t.keys cls, tag ≠ [] := by
    intro tag htag
    obtain ⟨log, -, rfl, -⟩ := (hexact.mem_keys cls tag).mp htag
    exact issueTag_ne_nil _ _
  have hclean : '\\' ∉ cls.name ++ ": ".toList ++ [' '].intercalate (t.keys cls) := by
    rw [List.mem_append, not_or]
    refine ⟨by cases cls <;> decide, fun hmem => ?_⟩
    rcases mem_of_mem_intercalate hmem with hmem | ⟨tag, htag, hmem⟩
    · simp at hmem
    · obtain ⟨log, -, rfl, -⟩ := (hexact.mem_keys cls tag).mp htag
      exact backslash_not_mem_issueTag _ _ hmem
  rw [classSummary, tags_listed, h.keys, shellWords_keys hexact hword, classLine, h.keys]
  by_cases hkeys : t.keys cls = []
  · simp [hkeys]
  · have hjoined : [' '].intercalate (t.keys cls) ≠ [] := fun hnil =>
      hkeys ((intercalate_eq_nil_iff _ hne).mp hnil)
    rw [if_neg hjoined, if_neg hkeys]
    have hescape : escapeAt ('t' :: (cls.name ++ ": ".toList ++ [' '].intercalate (t.keys cls))) =
        some (.char '\t' 1) := rfl
    calc echoE ("\\t".toList ++ cls.name ++ ": ".toList ++ [' '].intercalate (t.keys cls))
        = '\t' :: echoAt 0 (cls.name ++ ": ".toList ++ [' '].intercalate (t.keys cls)) := by
          rw [← echoAt_escape hescape, echoE]
          simp
      _ = '\t' :: (cls.name ++ ": ".toList ++ [' '].intercalate (t.keys cls) ++ ['\n']) := by
          have hecho := echoAt_of_not_mem hclean []
          rw [List.append_nil] at hecho
          rw [hecho]
          rfl

end

section

variable {tools : Tools} {logs : List Text}

theorem SoundTags.faithful (h : SoundTags tools logs) (hnodup : logs.Nodup)
    (hnames : ∀ log ∈ logs, WellNamed log) : Faithful tools logs (scanLogs tools logs) := by
  have hsep := separates_iff.mpr h.separate
  have hexact := Grouping.collect_exact hnodup hsep
  have hrepresents : Represents (scanLogs tools logs) ((grouping tools).collect logs) :=
    scanLogs_represents logs
  have hword : ∀ log ∈ logs, ∀ c ∈ tagOf tools log, isBlank c = false := fun log hlog =>
    (issueTag_word_iff _ _).mpr (h.fiveDigits log hlog)
  have hlisted : ∀ block, block ∈ listed (scanLogs tools logs) ↔
      ∃ log ∈ logs, block = heading tools logs log := fun _ =>
    mem_listed_iff hrepresents hexact hsep hword
  constructor
  case classes => exact classLine_eq hrepresents hexact hword
  case printed =>
    intro block hblock
    obtain ⟨log, hlog, rfl⟩ := (hlisted block).mp hblock
    exact (printed_heading_iff hnames hlog).mpr (h.shown log hlog)
  case once =>
    rw [flatMap_names_listed hrepresents hexact hnames hword]
    exact hexact.perm hnodup hsep (by decide) BugClass.mem_classesOrder
  case labelled =>
    intro block hblock other hother
    obtain ⟨log, hlog, rfl⟩ := (hlisted block).mp hblock
    rw [names_heading hnames hlog] at hother
    exact (mem_sameIssue.mp hother).2
  case together =>
    intro log hlog other hother
    constructor
    · rintro ⟨block, hblock, hmem, hmem'⟩
      obtain ⟨first, hfirst, rfl⟩ := (hlisted block).mp hblock
      rw [names_heading hnames hfirst] at hmem hmem'
      exact (mem_sameIssue.mp hmem).2.trans (mem_sameIssue.mp hmem').2.symm
    · intro hissue
      refine ⟨heading tools logs log, (hlisted _).mpr ⟨log, hlog, rfl⟩, ?_⟩
      rw [names_heading hnames hlog]
      exact ⟨mem_sameIssue.mpr ⟨hlog, rfl⟩, mem_sameIssue.mpr ⟨hother, hissue.symm⟩⟩

/-! ## A faithful report needs sound tags -/

/-- A heading that shows a log belongs to the log's tag, whatever the tags are. -/
theorem tag_of_mem_names {block : ListedIssue} (hnames : ∀ log ∈ logs, WellNamed log)
    (hblock : block ∈ listed (scanLogs tools logs)) {log : Text} (hlog : log ∈ block.names)
    (hne : log ≠ []) :
    block.names = ((grouping tools).collect logs).members (tagOf tools log) ∧
      block.message = ((grouping tools).collect logs).label (tagOf tools log) ∧
      ∀ c ∈ tagOf tools log, isBlank c = false := by
  have hsound := Grouping.collect_sound (g := grouping tools) logs
  obtain ⟨cls, tag, htag, rfl⟩ := (mem_listed (scanLogs_represents logs)).mp hblock
  obtain ⟨hmember, hblocknames⟩ :
      log ∈ ((grouping tools).collect logs).members tag ∧
        ([','].intercalate (((grouping tools).collect logs).members tag)).splitOn ',' =
          ((grouping tools).collect logs).members tag := by
    by_cases hnil : ((grouping tools).collect logs).members tag = []
    · simp [ListedIssue.names, hnil, hne] at hlog
    · have hsplit := splitOn_names hnil fun other hother =>
        hnames other (hsound.members_seen tag other hother).1
      exact ⟨by rwa [ListedIssue.names, hsplit] at hlog, hsplit⟩
  obtain rfl : tagOf tools log = tag := (hsound.members_seen tag log hmember).2
  exact ⟨hblocknames, rfl, not_blank_of_mem_shellWords htag⟩

theorem Faithful.soundTags (h : Faithful tools logs (scanLogs tools logs)) (hnodup : logs.Nodup)
    (hnames : ∀ log ∈ logs, WellNamed log) : SoundTags tools logs := by
  have hsound := Grouping.collect_sound (g := grouping tools) logs
  have hshown : ∀ log ∈ logs, ∃ block ∈ listed (scanLogs tools logs), log ∈ block.names :=
    fun log hlog => List.mem_flatMap.mp (h.once.mem_iff.mpr hlog)
  have hword : ∀ log ∈ logs, ∀ c ∈ tagOf tools log, isBlank c = false := by
    intro log hlog
    obtain ⟨block, hblock, hmem⟩ := hshown log hlog
    exact (tag_of_mem_names hnames hblock hmem (hnames log hlog).1).2.2
  have hseparate : ∀ log ∈ logs, ∀ other ∈ logs, log ≠ other →
      tagOf tools log = tagOf tools other →
      derived tools log = derived tools other ∧ (derived tools log).message ≠ [] := by
    intro log hlog other hother hne htag
    obtain ⟨block, hblock, hmem⟩ := hshown log hlog
    obtain ⟨block', hblock', hmem'⟩ := hshown other hother
    obtain ⟨hblock_eq, hmessage, -⟩ := tag_of_mem_names hnames hblock hmem (hnames log hlog).1
    obtain ⟨hblock'_eq, -, -⟩ := tag_of_mem_names hnames hblock' hmem' (hnames other hother).1
    have hsame : other ∈ block.names := by rwa [hblock_eq, htag, ← hblock'_eq]
    have hissue := h.labelled block hblock log hmem
    refine ⟨hissue.trans (h.labelled block hblock other hsame).symm, fun hblank => hne ?_⟩
    -- under a blank message there is room for one log only
    have hlabel : ((grouping tools).collect logs).label (tagOf tools log) = [] := by
      rw [← hmessage, ← hblank, hissue]
      rfl
    have hroom : block.names.length ≤ 1 := hblock_eq ▸ hsound.members_le _ hlabel
    obtain ⟨name, hname⟩ := List.length_eq_one_iff.mp
      (le_antisymm hroom (List.length_pos_of_mem hmem))
    rw [hname, List.mem_singleton] at hmem hsame
    rw [hmem, hsame]
  have hsep := separates_iff.mpr hseparate
  have hlisted : ∀ block, block ∈ listed (scanLogs tools logs) ↔
      ∃ log ∈ logs, block = heading tools logs log := fun _ =>
    mem_listed_iff (scanLogs_represents logs) (Grouping.collect_exact hnodup hsep) hsep hword
  refine ⟨hseparate, fun log hlog => (issueTag_word_iff _ _).mp (hword log hlog), ?_⟩
  intro log hlog
  exact (printed_heading_iff hnames hlog).mp (h.printed _ ((hlisted _).mpr ⟨log, hlog, rfl⟩))

end

/-! ## The whole report -/

/-- The text is the head with the headings, and these are faithful only for sound tags. -/
theorem report_faithful_iff (tools : Tools) (targetInfo : Text) (scanLogsNum : ℕ)
    {logs : List Text} (hnodup : logs.Nodup) (hnames : ∀ log ∈ logs, WellNamed log) :
    renderToText targetInfo scanLogsNum (scanLogs tools logs) =
        reportHead targetInfo scanLogsNum (scanLogs tools logs) ++
          (listed (scanLogs tools logs)).flatMap ListedIssue.printed ∧
      (Faithful tools logs (scanLogs tools logs) ↔ SoundTags tools logs) :=
  ⟨renderToText_eq targetInfo scanLogsNum _,
    fun h => h.soundTags hnodup hnames, fun h => h.faithful hnodup hnames⟩

/-! ## Logs of one line -/

/-- What the tools do with logs of one line, about an unchecked MSR access. -/
def msrTools : Tools where
  grepLog := fun args log =>
    if args.head? = some "-A" then []
    else "unchecked MSR access error: RDMSR from 0x".toList ++ log.drop 5 ++ ['\n']
  grep := fun args input => if args.head? = some "-m" then [] else input
  sed := fun _ input => input
  tac := fun log => "unchecked MSR access error: RDMSR from 0x".toList ++ log.drop 5 ++ ['\n']
  cksum := cksum
  timedOut := fun _ => false

theorem report_faithful_iff_msr :
    Faithful msrTools ["./msr103".toList, "./msr104".toList]
      (scanLogs msrTools ["./msr103".toList, "./msr104".toList]) :=
  (report_faithful_iff msrTools "bzImage".toList 2 (by decide) (by decide)).2.mpr
    ⟨by decide +kernel, by decide +kernel, by decide +kernel⟩

/-- The checksums of the two messages begin alike, so the second log gets the first one's. -/
theorem colliding_tags_mislabel :
    renderToText "bzImage".toList 2
        (scanLogs msrTools ["./msr103".toList, "./msr25d".toList]) =
      ("Target: bzImage\nIdentified 1 issues out of 2 logs:\n\tWARNS: 24830\n\n" ++
        "[24830] unchecked MSR access error: RDMSR from 0x103 \n" ++
        "\t./msr103,\n\t./msr25d\n\n").toList ∧
      (derived msrTools "./msr25d".toList).message =
        "unchecked MSR access error: RDMSR from 0x25d ".toList ∧
      ¬ Faithful msrTools ["./msr103".toList, "./msr25d".toList]
        (scanLogs msrTools ["./msr103".toList, "./msr25d".toList]) := by
  refine ⟨by decide +kernel, by decide +kernel, fun h => ?_⟩
  have hshared : ∃ block ∈ listed (scanLogs msrTools ["./msr103".toList, "./msr25d".toList]),
      "./msr103".toList ∈ block.names ∧ "./msr25d".toList ∈ block.names := by decide +kernel
  have hissue := (h.together "./msr103".toList (by decide) "./msr25d".toList (by decide)).mp hshared
  exact absurd hissue (by decide +kernel)

end TdvfFuzz.CrashSummary
