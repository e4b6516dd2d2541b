import TdvfFuzz.CrashSummary.Headings
import TdvfFuzz.CrashSummary.Tables
import TdvfFuzz.Foundation.LineTools
import TdvfFuzz.Foundation.Python

/-!
# Candidates for decoding

Behind the scan, the logs are grouped once more, by a checksum of their tag,
class, harness and note.  Every scanned log is in one of these groups.
-/

namespace TdvfFuzz.CrashSummary

open TdvfFuzz.Foundation

/-! ## Names of files -/

/-- `dirname` -/
def dirname (path : Text) : Text :=
  let trimmed := path.rdropWhile (· = '/')
  if trimmed = [] then (if path = [] then ['.'] else ['/'])
  else if '/' ∉ trimmed then ['.']
  else
    let parent := (trimmed.rdropWhile (· ≠ '/')).rdropWhile (· = '/')
    if parent = [] then ['/'] else parent

/-- `realpath --relative-to $DIR`, where no directory has a blank in its name. -/
structure Layout where
  realpath : Text → Text
  word : ∀ path, ∀ c ∈ realpath path, isBlank c = false

/-- `get_workdir_from_logname` -/
def workdirFromLogname (layout : Layout) (files : Files) (log : Text) : Text :=
  let dir1 := layout.realpath (dirname log ++ "/..".toList)
  if (files (dir1 ++ "/stats".toList)).isSome then dir1
  else layout.realpath (dirname log ++ "/../..".toList)

/-- `get_harness_from_logname` -/
def harnessFromLogname (layout : Layout) (files : Files) (log : Text) : Text :=
  dirname (workdirFromLogname layout files log)

/-! ## The loops of `get_unique_candidates` -/

structure Candidate where
  cls : BugClass
  tag : Text
  log : Text
  deriving DecidableEq, Repr

/-- The words of `$(echo "$logs"|sed 's/,/\n/g')` -/
def logWords (logs : Text) : List Text :=
  shellWords (commandSubst ((echo logs).map fun c => if c = ',' then '\n' else c))

def candidates (s : Issues) : List Candidate :=
  BugClass.classesOrder.flatMap fun cls =>
    (shellWords (s.class2tag.getD cls [])).flatMap fun tag =>
      (logWords (s.tag2log.getD tag [])).map fun log => ⟨cls, tag, log⟩

/-- `$(echo "$tag,$class,$harness,${log2note[$log]}"|cksum -|cut -b -8)` -/
def candidateId (tools : Tools) (tag : Text) (cls : BugClass) (harness note : Text) : Text :=
  commandSubst ((cksumLine (tools.cksum (echo (tag ++ ',' :: cls.name ++ ',' :: harness ++
    ',' :: note)))).take 8 ++ ['\n'])

def Candidate.id (tools : Tools) (layout : Layout) (files : Files) (s : Issues)
    (candidate : Candidate) : Text :=
  candidateId tools candidate.tag candidate.cls
    (harnessFromLogname layout files candidate.log) (s.log2note.getD candidate.log [])

def addCandidate (tools : Tools) (layout : Layout) (files : Files) (s : Issues)
    (uniqueLogs : Dict Text Text) (candidate : Candidate) : Dict Text Text :=
  let logid := candidate.id tools layout files s
  if uniqueLogs.getD logid [] = [] then uniqueLogs.set logid candidate.log
  else uniqueLogs.set logid (uniqueLogs.getD logid [] ++ ',' :: candidate.log)

/-- `get_unique_candidates` -/
def getUniqueCandidates (tools : Tools) (layout : Layout) (files : Files) (s : Issues) :
    Dict Text Text :=
  (candidates s).foldl (addCandidate tools layout files s) .empty

/-! ## Logs as the script finds them -/

/-- A name that `find .` prints for one of the patterns of the script. -/
def Found (log : Text) : Prop := WellNamed log ∧ "./".toList <+: log ∧ "log".toList <:+ log

instance (log : Text) : Decidable (Found log) :=
  inferInstanceAs (Decidable (_ ∧ _ ∧ _))

/-- Logs whose issues are told apart well enough for the arrays to list all of them. -/
structure SoundScan (tools : Tools) (logs : List Text) : Prop where
  nodup : logs.Nodup
  found : ∀ log ∈ logs, Found log
  message : ∀ log ∈ logs, (derived tools log).message ≠ []
  fiveDigits : ∀ log ∈ logs,
    10000 ≤ (tools.cksum (echo ((derived tools log).message ++ ',' ::
      (derived tools log).cls.name))).1

section

variable {names : List Text}

theorem not_option_of_found (h : ∀ name ∈ names, Found name) :
    isEchoOption ([','].intercalate names) = false := by
  cases names with
  | nil => rfl
  | cons name names =>
      obtain ⟨rest, hname⟩ := (h name (by simp)).2.1
      have hfirst : ∃ tail, [','].intercalate (name :: names) = '.' :: tail := by
        cases names with
        | nil => exact ⟨_, by rw [List.intercalate_singleton, ← hname]; rfl⟩
        | cons next names => exact ⟨_, by rw [List.intercalate_cons_cons, ← hname]; rfl⟩
      obtain ⟨tail, htail⟩ := hfirst
      rw [htail]
      rfl

/-- The commas of a list of names as newlines, with the newline of `echo` behind. -/
theorem echo_lines (h : ∀ name ∈ names, Found name) :
    (echo ([','].intercalate names)).map (fun c => if c = ',' then '\n' else c) =
      ['\n'].intercalate names ++ ['\n'] := by
  have hreplace : ([','].intercalate names).map (fun c => if c = ',' then '\n' else c) =
      ['\n'].intercalate names := by
    rw [← List.flatMap_singleton' (List.map _ _), List.flatMap_map]
    exact flatMap_intercalate fun name hname c hc => by simp [((h name hname).1.2 c hc).1]
  rw [echo, not_option_of_found h, if_neg Bool.false_ne_true, List.map_append, hreplace]
  rfl

theorem commandSubst_lines (h : ∀ name ∈ names, Found name) :
    commandSubst (['\n'].intercalate names ++ ['\n']) = ['\n'].intercalate names := by
  apply commandSubst_newline
  · intro hmem
    rcases mem_of_mem_intercalate hmem with hsep | ⟨name, hname, hc⟩
    · exact absurd hsep (by decide)
    · exact ((h name hname).1.2 _ hc).2.2 rfl
  · rcases names.eq_nil_or_concat' with rfl | ⟨front, last, rfl⟩
    · simp
    · obtain ⟨hne, hchars⟩ := (h last (by simp)).1
      rintro c hc rfl
      have hend : (['\n'].intercalate (front ++ [last])).getLast? = last.getLast? := by
        cases front with
        | nil => simp
        | cons name front =>
            rw [intercalate_concat (by simp), ← List.append_assoc,
              List.getLast?_append_of_ne_nil _ hne]
      rw [hend] at hc
      exact absurd (hchars _ (List.mem_of_getLast? hc)).2.1 (by decide)

theorem word_of_found {name : Text} (h : Found name) :
    name ≠ [] ∧ ∀ c ∈ name, isBlank c = false :=
  ⟨h.1.1, fun c hc => (h.1.2 c hc).2.1⟩

theorem logWords_names (h : ∀ name ∈ names, Found name) :
    logWords ([','].intercalate names) = names := by
  rw [logWords, echo_lines h, commandSubst_lines h]
  exact shellWords_joined rfl fun name hname => word_of_found (h name hname)

end

/-! ## The candidates of a scan -/

/-- The class under which the tag of a log is listed is that of the first log with the tag. -/
def listedClass (tools : Tools) (logs : List Text) (log : Text) : BugClass :=
  (derived tools ((logs.find? fun other => tagOf tools other = tagOf tools log).getD log)).cls

def candidateOf (tools : Tools) (logs : List Text) (log : Text) : Candidate :=
  ⟨listedClass tools logs log, tagOf tools log, log⟩

/-- `logid`, for a log of the scan -/
def logId (tools : Tools) (layout : Layout) (files : Files) (logs : List Text) (log : Text) :
    Text :=
  candidateId tools (tagOf tools log) (listedClass tools logs log)
    (harnessFromLogname layout files log) (errorNote tools log)

section

variable {tools : Tools} {logs : List Text}

theorem SoundScan.whole (h : SoundScan tools logs) :
    (grouping tools).Whole logs ((grouping tools).collect logs) :=
  Grouping.collect_whole h.message

theorem SoundScan.shellWords_tags (h : SoundScan tools logs) (cls : BugClass) :
    shellWords ((scanLogs tools logs).class2tag.getD cls []) =
      ((grouping tools).collect logs).keys cls := by
  rw [(scanLogs_represents logs).keys]
  apply shellWords_intercalate
  intro tag htag
  obtain ⟨log, hlog, -⟩ := (h.whole.mem_keys cls tag).mp htag
  have hmem := List.mem_of_find?_eq_some hlog
  have htag := List.find?_some hlog
  obtain rfl : tagOf tools log = tag := of_decide_eq_true htag
  exact ⟨issueTag_ne_nil _ _, (issueTag_word_iff _ _).mpr (h.fiveDigits log hmem)⟩

theorem SoundScan.logWords_logs (h : SoundScan tools logs) (tag : Text) :
    logWords ((scanLogs tools logs).tag2log.getD tag []) =
      ((grouping tools).collect logs).members tag := by
  rw [(scanLogs_represents logs).members]
  apply logWords_names
  intro log hlog
  rw [h.whole.members] at hlog
  exact h.found log (List.mem_of_mem_filter hlog)

theorem SoundScan.candidates_eq (h : SoundScan tools logs) :
    candidates (scanLogs tools logs) =
      ((BugClass.classesOrder.flatMap ((grouping tools).collect logs).keys).flatMap
        ((grouping tools).collect logs).members).map (candidateOf tools logs) := by
  simp only [candidates, h.shellWords_tags, h.logWords_logs, List.flatMap_assoc, List.map_flatMap]
  apply List.flatMap_congr
  intro cls _
  apply List.flatMap_congr
  intro tag htag
  obtain ⟨first, hfirst, hcls⟩ := (h.whole.mem_keys cls tag).mp htag
  apply List.map_congr_left
  intro log hlog
  rw [h.whole.members, List.mem_filter] at hlog
  obtain rfl : tagOf tools log = tag := of_decide_eq_true hlog.2
  have hlisted : listedClass tools logs log = cls := by
    rw [listedClass, show logs.find? (fun other => tagOf tools other = tagOf tools log) =
      some first from hfirst]
    exact hcls
  rw [candidateOf, hlisted]

/-- Every scanned log is a candidate, once. -/
theorem SoundScan.candidates_perm (h : SoundScan tools logs) :
    (candidates (scanLogs tools logs)).Perm (logs.map (candidateOf tools logs)) := by
  rw [h.candidates_eq]
  exact (h.whole.perm h.nodup (by decide) BugClass.mem_classesOrder).map _

theorem getD_log2note_scanLogs {log : Text} (h : log ∈ logs) :
    (scanLogs tools logs).log2note.getD log [] = errorNote tools log := by
  induction logs using List.reverseRecOn with
  | nil => simp at h
  | append_singleton logs last ih =>
      have hlast : scanLogs tools (logs ++ [last]) =
          scanLog tools (scanLogs tools logs) last := by simp [scanLogs]
      rw [hlast, scanLog_eq]
      by_cases hlog : log = last
      · simp [hlog]
      · simpa [hlog] using ih (by simpa [hlog] using h)

theorem id_candidateOf (layout : Layout) (files : Files) {log : Text} (h : log ∈ logs) :
    (candidateOf tools logs log).id tools layout files (scanLogs tools logs) =
      logId tools layout files logs log := by
  rw [Candidate.id, candidateOf, logId, getD_log2note_scanLogs h]

end

/-! ## The array as a grouping -/

def uniqueGrouping (tools : Tools) (layout : Layout) (files : Files) (s : Issues) :
    Grouping Candidate Text Text Unit where
  key := fun candidate => candidate.id tools layout files s
  label := Candidate.log
  cls := fun _ => ()
  blank := []

structure Lists (uniqueLogs : Dict Text Text) (t : Groups Candidate Text Text Unit) : Prop where
  logs : ∀ logid, uniqueLogs.getD logid [] = [','].intercalate ((t.members logid).map Candidate.log)
  keys : uniqueLogs.keys = t.keys ()

section

variable {tools : Tools} {layout : Layout} {files : Files} {s : Issues}

theorem foldl_addCandidate_lists {visited : List Candidate}
    (h : ∀ candidate ∈ visited, candidate.log ≠ []) :
    Lists (visited.foldl (addCandidate tools layout files s) .empty)
      ((uniqueGrouping tools layout files s).collect visited) := by
  induction visited using List.reverseRecOn with
  | nil => constructor <;> simp [Grouping.start]
  | append_singleton visited candidate ih =>
      obtain ⟨hvisited, hnew⟩ := List.forall_mem_append.mp h
      have hne : candidate.log ≠ [] := hnew candidate (by simp)
      have ih := ih hvisited
      have hwhole : (uniqueGrouping tools layout files s).Whole visited _ :=
        Grouping.collect_whole hvisited
      rw [List.foldl_append, List.foldl_cons, List.foldl_nil, Grouping.collect_concat]
      generalize visited.foldl (addCandidate tools layout files s) .empty = uniqueLogs at ih ⊢
      generalize (uniqueGrouping tools layout files s).collect visited = t at ih hwhole ⊢
      have hlabels : ∀ logid, t.label logid = [] ↔
          ∀ other ∈ visited, other.id tools layout files s ≠ logid := hwhole.label
      have hkeys : ∀ logid, logid ∈ uniqueLogs.keys ↔ t.label logid ≠ [] := by
        intro logid
        have hfound := hwhole.mem_keys () logid
        simp only [and_true, ← Option.isSome_iff_exists,
          List.find?_isSome, decide_eq_true_eq] at hfound
        rw [ih.keys, hfound, Ne, hlabels]
        simp [uniqueGrouping]
      by_cases hlabel : t.label (candidate.id tools layout files s) = []
      · have hunset : uniqueLogs.getD (candidate.id tools layout files s) [] = [] :=
          Dict.getD_of_not_mem fun hmem => (hkeys _).mp hmem hlabel
        have hblank : t.label ((uniqueGrouping tools layout files s).key candidate) =
            (uniqueGrouping tools layout files s).blank := hlabel
        rw [addCandidate, if_pos hunset, Grouping.enter, if_pos hblank]
        constructor
        case logs =>
          intro logid
          by_cases hid : logid = candidate.id tools layout files s
          · simp [hid, uniqueGrouping]
          · simpa [hid, uniqueGrouping] using ih.logs logid
        case keys =>
          rw [Dict.keys_set_of_not_mem _ fun hmem => (hkeys _).mp hmem hlabel, ih.keys]
          simp [uniqueGrouping]
      · have hmembers : t.members (candidate.id tools layout files s) ≠ [] := by
          rw [hwhole.members, Ne, List.filter_eq_nil_iff]
          simp only [decide_eq_true_eq]
          exact fun hnone => hlabel ((hlabels _).mpr hnone)
        have hset : uniqueLogs.getD (candidate.id tools layout files s) [] ≠ [] := by
          rw [ih.logs, Ne, intercalate_eq_nil_iff]
          · simpa using hmembers
          · simp only [List.forall_mem_map, hwhole.members]
            exact fun other hother => hvisited other (List.mem_of_mem_filter hother)
        have hblank : t.label ((uniqueGrouping tools layout files s).key candidate) ≠
            (uniqueGrouping tools layout files s).blank := hlabel
        rw [addCandidate, if_neg hset, Grouping.enter, if_neg hblank]
        constructor
        case logs =>
          intro logid
          by_cases hid : logid = candidate.id tools layout files s
          · simp [hid, uniqueGrouping, ih.logs, intercalate_concat, hmembers]
          · simpa [hid, uniqueGrouping] using ih.logs logid
        case keys => rw [Dict.keys_set_of_mem ((hkeys _).mpr hlabel), ih.keys]

end

/-! ## Every log in one group -/

/-- The logs that `unique_logs` holds under a number. -/
def membersOf (tools : Tools) (layout : Layout) (files : Files) (s : Issues) (logid : Text) :
    List Text :=
  (((uniqueGrouping tools layout files s).collect (candidates s)).members logid).map Candidate.log

namespace SoundScan

variable {tools : Tools} {logs : List Text}

theorem nodup_candidates (h : SoundScan tools logs) :
    (candidates (scanLogs tools logs)).Nodup := by
  have hlog : Function.LeftInverse Candidate.log (candidateOf tools logs) := fun _ => rfl
  exact h.candidates_perm.nodup_iff.mpr (h.nodup.map hlog.injective)

theorem mem_candidates (h : SoundScan tools logs) {candidate : Candidate} :
    candidate ∈ candidates (scanLogs tools logs) ↔
      ∃ log ∈ logs, candidateOf tools logs log = candidate := by
  rw [h.candidates_perm.mem_iff, List.mem_map]

theorem log_ne_nil (h : SoundScan tools logs) :
    ∀ candidate ∈ candidates (scanLogs tools logs), candidate.log ≠ [] := by
  intro candidate hcandidate
  obtain ⟨log, hlog, rfl⟩ := h.mem_candidates.mp hcandidate
  exact (h.found log hlog).1.1

variable (layout : Layout) (files : Files)

theorem whole_unique (h : SoundScan tools logs) :
    (uniqueGrouping tools layout files (scanLogs tools logs)).Whole
      (candidates (scanLogs tools logs))
      ((uniqueGrouping tools layout files (scanLogs tools logs)).collect
        (candidates (scanLogs tools logs))) :=
  Grouping.collect_whole h.log_ne_nil

theorem lists_unique (h : SoundScan tools logs) :
    Lists (getUniqueCandidates tools layout files (scanLogs tools logs))
      ((uniqueGrouping tools layout files (scanLogs tools logs)).collect
        (candidates (scanLogs tools logs))) :=
  foldl_addCandidate_lists h.log_ne_nil

theorem getD_getUniqueCandidates (h : SoundScan tools logs) (logid : Text) :
    (getUniqueCandidates tools layout files (scanLogs tools logs)).getD logid [] =
      [','].intercalate (membersOf tools layout files (scanLogs tools logs) logid) :=
  (h.lists_unique layout files).logs logid

theorem mem_membersOf (h : SoundScan tools logs) {logid log : Text} :
    log ∈ membersOf tools layout files (scanLogs tools logs) logid ↔
      log ∈ logs ∧ logId tools layout files logs log = logid := by
  simp only [membersOf, (h.whole_unique layout files).members, List.mem_map, List.mem_filter,
    h.mem_candidates, decide_eq_true_eq]
  constructor
  · rintro ⟨_, ⟨⟨other, hother, rfl⟩, hid⟩, rfl⟩
    exact ⟨hother, (id_candidateOf layout files hother).symm.trans hid⟩
  · rintro ⟨hlog, rfl⟩
    exact ⟨_, ⟨⟨log, hlog, rfl⟩, id_candidateOf layout files hlog⟩, rfl⟩

theorem mem_keys_unique (h : SoundScan tools logs) {logid : Text} :
    logid ∈ (getUniqueCandidates tools layout files (scanLogs tools logs)).keys ↔
      ∃ log ∈ logs, logId tools layout files logs log = logid := by
  have hfound := (h.whole_unique layout files).mem_keys () logid
  simp only [and_true, ← Option.isSome_iff_exists, List.find?_isSome, decide_eq_true_eq] at hfound
  rw [(h.lists_unique layout files).keys, hfound]
  constructor
  · rintro ⟨candidate, hcandidate, hid⟩
    obtain ⟨log, hlog, rfl⟩ := h.mem_candidates.mp hcandidate
    exact ⟨log, hlog, (id_candidateOf layout files hlog).symm.trans hid⟩
  · rintro ⟨log, hlog, rfl⟩
    exact ⟨_, h.mem_candidates.mpr ⟨log, hlog, rfl⟩, id_candidateOf layout files hlog⟩

theorem flatMap_membersOf_perm (h : SoundScan tools logs) :
    ((getUniqueCandidates tools layout files (scanLogs tools logs)).keys.flatMap
      (membersOf tools layout files (scanLogs tools logs))).Perm logs := by
  have hperm := (h.whole_unique layout files).perm h.nodup_candidates (List.nodup_singleton ())
    (by simp)
  rw [List.flatMap_singleton] at hperm
  have hlogs := (hperm.trans h.candidates_perm).map Candidate.log
  have hid : (logs.map (candidateOf tools logs)).map Candidate.log = logs := by
    simp [Function.comp_def, candidateOf]
  rwa [hid, List.map_flatMap, ← (h.lists_unique layout files).keys] at hlogs

end SoundScan

/-- The groups of logs that are taken for one finding. -/
structure UniqueGroups (tools : Tools) (layout : Layout) (files : Files) (logs : List Text)
    (groups : List (List Text)) : Prop where
  values : (getUniqueCandidates tools layout files (scanLogs tools logs)).values =
    groups.map ([','].intercalate ·)
  once : groups.flatten.Perm logs
  nonempty : ∀ group ∈ groups, group ≠ []
  together : ∀ log ∈ logs, ∀ other ∈ logs,
    (∃ group ∈ groups, log ∈ group ∧ other ∈ group) ↔
      logId tools layout files logs log = logId tools layout files logs other

theorem SoundScan.uniqueGroups {tools : Tools} {logs : List Text} (h : SoundScan tools logs)
    (layout : Layout) (files : Files) :
    UniqueGroups tools layout files logs
      ((getUniqueCandidates tools layout files (scanLogs tools logs)).keys.map
        (membersOf tools layout files (scanLogs tools logs))) := by
  constructor
  case values =>
    rw [Dict.values_eq_map_getD _ [], List.map_map]
    exact List.map_congr_left fun logid _ => h.getD_getUniqueCandidates layout files logid
  case once =>
    rw [← List.flatMap_def]
    exact h.flatMap_membersOf_perm layout files
  case nonempty =>
    simp only [List.forall_mem_map]
    intro logid hlogid
    obtain ⟨log, hlog, hid⟩ := (h.mem_keys_unique layout files).mp hlogid
    exact List.ne_nil_of_mem ((h.mem_membersOf layout files).mpr ⟨hlog, hid⟩)
  case together =>
    intro log hlog other hother
    constructor
    · rintro ⟨_, hgroup, hlog, hother⟩
      obtain ⟨logid, -, rfl⟩ := List.mem_map.mp hgroup
      rw [((h.mem_membersOf layout files).mp hlog).2, ((h.mem_membersOf layout files).mp hother).2]
    · intro hid
      exact ⟨_, List.mem_map_of_mem ((h.mem_keys_unique layout files).mpr ⟨log, hlog, rfl⟩),
        (h.mem_membersOf layout files).mpr ⟨hlog, rfl⟩,
        (h.mem_membersOf layout files).mpr ⟨hother, hid.symm⟩⟩

/--
The groups hold every scanned log once, and two logs share a group exactly if
tag, listed class, harness and note give them the same number.
-/
theorem unique_candidates_exact (tools : Tools) (layout : Layout) (files : Files)
    {logs : List Text} (h : SoundScan tools logs) :
    ∃ groups, UniqueGroups tools layout files logs groups :=
  ⟨_, h.uniqueGroups layout files⟩

/-! ## Three logs of two harnesses -/

def accessLog : Text := "unchecked MSR access error: RDMSR from 0x10\n".toList

/-- What the tools print for logs of this one line; the patterns with `-A` and `-m 2` miss it. -/
def accessTools : Tools where
  grepLog args _ := if args.head? = some "-A" then [] else accessLog
  grep args input := if args.head? = some "-m" then [] else input
  sed _ input := input
  tac _ := accessLog
  cksum := cksum
  timedOut _ := false

def accessLogs : List Text :=
  ["./a/w/logs/crash_1.log".toList, "./b/w/logs/crash_2.log".toList,
    "./a/w/logs/crash_3.log".toList]

def accessLayout : Layout where
  realpath path := if "./a".toList <+: path then "a/w".toList else "b/w".toList
  word path := by
    split <;> decide

/-- Every file but the decoded logs. -/
def accessFiles : Files := fun name =>
  if ".txt".toList <:+ name then none
  else if ".log".toList <:+ name then some accessLog
  else some []

theorem accessScan : SoundScan accessTools accessLogs where
  nodup := by decide
  found := by decide +kernel
  message := by decide +kernel
  fiveDigits := by decide +kernel

theorem unique_candidates_exact_access :
    ∃ groups, UniqueGroups accessTools accessLayout accessFiles accessLogs groups :=
  unique_candidates_exact accessTools accessLayout accessFiles accessScan

set_option maxRecDepth 10000 in
example : (getUniqueCandidates accessTools accessLayout accessFiles
    (scanLogs accessTools accessLogs)).values =
      ["./a/w/logs/crash_1.log,./a/w/logs/crash_3.log".toList,
        "./b/w/logs/crash_2.log".toList] := by
  decide +kernel

end TdvfFuzz.CrashSummary
