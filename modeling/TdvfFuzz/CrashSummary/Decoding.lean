import Mathlib.Algebra.BigOperators.Fin
import TdvfFuzz.CrashSummary.Candidates
import TdvfFuzz.Foundation.Batch

/-!
# Decoding the candidates

The first logs of every group are decoded by jobs that run side by side.  The
jobs write files of their own, so their order does not matter, and a second
summary finds nothing left to decode.
-/

namespace TdvfFuzz.CrashSummary

open TdvfFuzz.Foundation

/-! ## The job file -/

def maxSamples : ℕ := 2

/-- The words of `$(echo "$logs"|tr ',' '\n'|head -$MAX_SAMPLES)` -/
def samples (logs : Text) : List Text :=
  shellWords (commandSubst (head maxSamples
    ((echo logs).map fun c => if c = ',' then '\n' else c)))

/-- A line `$DECODE_SCRIPT $ELF < $log > $log.txt` of the job file. -/
structure DecodeJob where
  elf : Text
  log : Text
  deriving DecidableEq, Repr

def decodedName (log : Text) : Text := log ++ ".txt".toList

def elfName (layout : Layout) (files : Files) (log : Text) : Text :=
  workdirFromLogname layout files log ++ "/target/vmlinux".toList

/-- `decode_log`, by the line that it adds to the job file. -/
def decodeLog (layout : Layout) (files : Files) (log : Text) : Option DecodeJob :=
  if (files (elfName layout files log)).isNone then none
  else if (files (decodedName log)).isSome then none
  else some ⟨elfName layout files log, log⟩

/-- `decode_unique_logs`, where the array lists its values by the numbers in `order`. -/
def decodeUniqueLogs (layout : Layout) (files : Files) (uniqueLogs : Dict Text Text)
    (order : List Text) : List DecodeJob :=
  (shellWords ([' '].intercalate (order.map fun logid => uniqueLogs.getD logid []))).flatMap
    fun logs => (samples logs).filterMap (decodeLog layout files)

/-- A line of the job file, where the output is opened behind the input. -/
def DecodeJob.batchJob (decode : Text → Text → Text) (job : DecodeJob) : BatchJob Text Text where
  output := decodedName job.log
  result files := (files job.log).map (decode ((files job.elf).getD []))

/-! ## Which logs are decoded -/

theorem samples_names {names : List Text} (h : ∀ name ∈ names, Found name) :
    samples ([','].intercalate names) = names.take maxSamples := by
  rcases eq_or_ne names [] with rfl | hne
  · rfl
  · have hlines : ∀ name ∈ names, '\n' ∉ name := fun name hname hc =>
      absurd ((h name hname).1.2 _ hc).2.1 (by decide)
    have htake : ∀ name ∈ names.take maxSamples, Found name := fun name hname =>
      h name (List.mem_of_mem_take hname)
    have hne' : names.take maxSamples ≠ [] := by
      simp [maxSamples, hne]
    rw [samples, echo_lines h, intercalate_append_sep hne, head_terminated _ hlines,
      ← intercalate_append_sep hne', commandSubst_lines htake]
    exact shellWords_joined rfl fun name hname => word_of_found (htake name hname)

theorem decodeLog_eq_some {layout : Layout} {files : Files} {log : Text} {job : DecodeJob} :
    decodeLog layout files log = some job ↔
      (files (elfName layout files log)).isSome = true ∧ files (decodedName log) = none ∧
        job = ⟨elfName layout files log, log⟩ := by
  cases helf : files (elfName layout files log) with
  | none => simp [decodeLog, helf]
  | some elf =>
      cases hdecoded : files (decodedName log) with
      | none =>
          simp only [decodeLog, helf, hdecoded, Option.isNone_some, Option.isSome_none,
            Option.isSome_some, Bool.false_eq_true, if_false, Option.some.injEq, true_and]
          exact eq_comm
      | some text => simp [decodeLog, helf, hdecoded]

section

variable {tools : Tools} {logs : List Text} (layout : Layout) (files : Files)

/-- The logs that are looked at, for the numbers in some order. -/
def sampled (tools : Tools) (logs order : List Text) : List Text :=
  order.flatMap fun logid =>
    (membersOf tools layout files (scanLogs tools logs) logid).take maxSamples

variable {order : List Text}

theorem SoundScan.decodeUniqueLogs_eq (h : SoundScan tools logs)
    (horder : order.Perm (getUniqueCandidates tools layout files (scanLogs tools logs)).keys) :
    decodeUniqueLogs layout files (getUniqueCandidates tools layout files (scanLogs tools logs))
        order =
      (sampled layout files tools logs order).filterMap (decodeLog layout files) := by
  have hfound : ∀ logid, ∀ log ∈ membersOf tools layout files (scanLogs tools logs) logid,
      Found log := fun logid log hlog =>
    h.found log ((h.mem_membersOf layout files).mp hlog).1
  have hwords : ∀ value ∈ order.map fun logid =>
      (getUniqueCandidates tools layout files (scanLogs tools logs)).getD logid [],
      value ≠ [] ∧ ∀ c ∈ value, isBlank c = false := by
    simp only [List.forall_mem_map, h.getD_getUniqueCandidates]
    intro logid hlogid
    obtain ⟨log, hlog, hid⟩ := (h.mem_keys_unique layout files).mp (horder.mem_iff.mp hlogid)
    constructor
    · rw [Ne, intercalate_eq_nil_iff _ fun log hlog => (word_of_found (hfound logid log hlog)).1]
      exact List.ne_nil_of_mem ((h.mem_membersOf layout files).mpr ⟨hlog, hid⟩)
    · intro c hc
      rcases mem_of_mem_intercalate hc with hsep | ⟨other, hother, hc⟩
      · obtain rfl := List.mem_singleton.mp hsep
        decide
      · exact (word_of_found (hfound logid other hother)).2 c hc
  rw [decodeUniqueLogs, shellWords_intercalate hwords, List.flatMap_map, sampled,
    List.filterMap_flatMap]
  apply List.flatMap_congr
  intro logid _
  rw [h.getD_getUniqueCandidates, samples_names (hfound logid)]

theorem SoundScan.nodup_sampled (h : SoundScan tools logs)
    (horder : order.Perm (getUniqueCandidates tools layout files (scanLogs tools logs)).keys) :
    (sampled layout files tools logs order).Nodup := by
  have hall : (order.flatMap (membersOf tools layout files (scanLogs tools logs))).Nodup :=
    ((horder.flatMap_right _).trans (h.flatMap_membersOf_perm layout files)).nodup_iff.mpr h.nodup
  obtain ⟨heach, hdisjoint⟩ := List.nodup_flatMap.mp hall
  refine List.nodup_flatMap.mpr ⟨fun logid hlogid => (heach logid hlogid).sublist
    (List.take_sublist _ _), hdisjoint.imp ?_⟩
  intro a b hab log hlog hlog'
  exact hab (List.mem_of_mem_take hlog) (List.mem_of_mem_take hlog')

theorem SoundScan.mem_of_mem_sampled (h : SoundScan tools logs) {log : Text}
    (hlog : log ∈ sampled layout files tools logs order) : log ∈ logs := by
  obtain ⟨logid, -, hmem⟩ := List.mem_flatMap.mp hlog
  exact ((h.mem_membersOf layout files).mp (List.mem_of_mem_take hmem)).1

end

/-! ## Names that no job writes -/

theorem getLast?_decodedName (log : Text) : (decodedName log).getLast? = some 't' := by
  simp [decodedName]

theorem decodedName_injective : Function.Injective decodedName := fun _ _ h =>
  List.append_cancel_right h

theorem decodedName_ne_log (log : Text) {other : Text} (h : Found other) :
    decodedName log ≠ other := by
  obtain ⟨front, rfl⟩ := h.2.2
  intro heq
  have := getLast?_decodedName log
  simp [heq] at this

theorem decodedName_ne_elf (log workdir : Text) :
    decodedName log ≠ workdir ++ "/target/vmlinux".toList := by
  intro heq
  have := getLast?_decodedName log
  simp [heq] at this

theorem decodedName_ne_stats (log workdir : Text) :
    decodedName log ≠ workdir ++ "/stats".toList := by
  intro heq
  have := getLast?_decodedName log
  simp [heq] at this

/-! ## The jobs as a batch -/

/-- A decoding of scanned logs, where `split` has put the lines of the job file into chunks. -/
structure Decoding (tools : Tools) (layout : Layout) (files : Files) (logs : List Text) where
  sound : SoundScan tools logs
  present : ∀ log ∈ logs, (files log).isSome = true
  order : List Text
  listed : order.Perm (getUniqueCandidates tools layout files (scanLogs tools logs)).keys
  count : ℕ
  chunks : Fin count → List DecodeJob
  split : (List.ofFn chunks).flatten = decodeUniqueLogs layout files
    (getUniqueCandidates tools layout files (scanLogs tools logs)) order

namespace Decoding

variable {tools : Tools} {layout : Layout} {files : Files} {logs : List Text}

theorem mem_chunks (d : Decoding tools layout files logs) {job : DecodeJob} :
    (∃ i, job ∈ d.chunks i) ↔ ∃ log ∈ sampled layout files tools logs d.order,
      decodeLog layout files log = some job := by
  rw [← List.mem_filterMap, ← d.sound.decodeUniqueLogs_eq layout files d.listed, ← d.split]
  simp [List.mem_ofFn]

theorem nodup_logs (d : Decoding tools layout files logs) :
    ((List.ofFn d.chunks).flatten.map DecodeJob.log).Nodup := by
  have hlog : ∀ log name, name ∈ (decodeLog layout files log).map DecodeJob.log → name = log := by
    intro log name hname
    obtain ⟨job, hjob, rfl⟩ := Option.map_eq_some_iff.mp hname
    obtain ⟨-, -, rfl⟩ := decodeLog_eq_some.mp hjob
    rfl
  rw [d.split, d.sound.decodeUniqueLogs_eq layout files d.listed, List.map_filterMap]
  apply (d.sound.nodup_sampled layout files d.listed).filterMap
  intro log other name hname hname'
  rw [← hlog log name hname, ← hlog other name hname']

theorem nodup_chunk (d : Decoding tools layout files logs) (i : Fin d.count) :
    ((d.chunks i).map DecodeJob.log).Nodup := by
  have hnodup := d.nodup_logs
  rw [List.map_flatten, List.nodup_flatten] at hnodup
  exact hnodup.1 _ (List.mem_map_of_mem (List.mem_ofFn.mpr ⟨i, rfl⟩))

theorem log_ne (d : Decoding tools layout files logs) {i j : Fin d.count} (hij : i ≠ j)
    {job other : DecodeJob} (hjob : job ∈ d.chunks i) (hother : other ∈ d.chunks j) :
    job.log ≠ other.log := by
  have hnodup := d.nodup_logs
  rw [List.map_flatten, List.nodup_flatten, List.pairwise_map, List.pairwise_ofFn] at hnodup
  intro heq
  have hmem := List.mem_map_of_mem (f := DecodeJob.log) hjob
  have hmem' := heq ▸ List.mem_map_of_mem (f := DecodeJob.log) hother
  rcases lt_or_gt_of_ne hij with hlt | hlt
  · exact hnodup.2 hlt hmem hmem'
  · exact hnodup.2 hlt hmem' hmem

theorem job_of_mem (d : Decoding tools layout files logs) {i : Fin d.count} {job : DecodeJob}
    (hjob : job ∈ d.chunks i) : Found job.log ∧ job.elf = elfName layout files job.log := by
  obtain ⟨log, hlog, hdecode⟩ := d.mem_chunks.mp ⟨i, hjob⟩
  obtain ⟨-, -, rfl⟩ := decodeLog_eq_some.mp hdecode
  exact ⟨d.sound.found log (d.sound.mem_of_mem_sampled layout files hlog), rfl⟩

def batch (d : Decoding tools layout files logs) (decode : Text → Text → Text) :
    Batch (Fin d.count) Text Text where
  chunks i := (d.chunks i).map (DecodeJob.batchJob decode)
  separate i := by
    have hnames := (d.nodup_chunk i).map decodedName_injective
    rwa [List.map_map] at hnames ⊢
  disjoint i j hij := by
    simp only [List.forall_mem_map]
    exact fun job hjob other hother heq =>
      d.log_ne hij hjob hother (decodedName_injective heq)
  independent i := by
    simp only [List.forall_mem_map]
    intro job hjob files files' hsame
    obtain ⟨hfound, helf⟩ := d.job_of_mem hjob
    have hlog : files job.log = files' job.log :=
      hsame _ fun j other _ => decodedName_ne_log other.log hfound
    have helf : files job.elf = files' job.elf := by
      rw [helf]
      exact hsame _ fun j other _ => decodedName_ne_elf other.log _
    simp only [DecodeJob.batchJob, hlog, helf]

end Decoding

/-! ## What a summary leaves behind -/

/-- The first logs of every group are decoded, unless they were or their kernel is missing. -/
structure Decoded (layout : Layout) (decode : Text → Text → Text) (files : Files)
    (groups : List (List Text)) (final : Files) : Prop where
  sampled : ∀ group ∈ groups, ∀ log ∈ group.take maxSamples,
    final (decodedName log) = (files (decodedName log) <|>
      (files (elfName layout files log)).bind fun elf => (files log).map (decode elf))
  other : ∀ name, (∀ group ∈ groups, ∀ log ∈ group.take maxSamples, name ≠ decodedName log) →
    final name = files name

namespace Decoding

variable {tools : Tools} {layout : Layout} {files : Files} {logs : List Text}

theorem mem_sampled_iff (d : Decoding tools layout files logs) {log : Text} :
    log ∈ sampled layout files tools logs d.order ↔
      ∃ group ∈ (getUniqueCandidates tools layout files (scanLogs tools logs)).keys.map
        (membersOf tools layout files (scanLogs tools logs)), log ∈ group.take maxSamples := by
  simp [sampled, d.listed.mem_iff]

theorem decoded (d : Decoding tools layout files logs) {decode : Text → Text → Text}
    {final : Files} (h : ∀ name, (d.batch decode).Settled files name (final name)) :
    Decoded layout decode files
      ((getUniqueCandidates tools layout files (scanLogs tools logs)).keys.map
        (membersOf tools layout files (scanLogs tools logs))) final := by
  have hother : ∀ name, (∀ log ∈ sampled layout files tools logs d.order,
      (decodeLog layout files log).isSome = true → decodedName log ≠ name) →
      final name = files name := by
    intro name hname
    apply (h name).other
    intro i
    simp only [batch, List.forall_mem_map]
    intro job hjob
    obtain ⟨log, hlog, hdecode⟩ := d.mem_chunks.mp ⟨i, hjob⟩
    obtain ⟨-, -, rfl⟩ := decodeLog_eq_some.mp hdecode
    exact hname log hlog (by simp [hdecode])
  constructor
  case sampled =>
    intro group hgroup log hmem
    have hlog := d.mem_sampled_iff.mpr ⟨group, hgroup, hmem⟩
    cases hjob : decodeLog layout files log with
    | some job =>
        obtain ⟨i, hi⟩ := d.mem_chunks.mpr ⟨log, hlog, hjob⟩
        obtain ⟨helf, hnone, rfl⟩ := decodeLog_eq_some.mp hjob
        obtain ⟨elf, helf⟩ := Option.isSome_iff_exists.mp helf
        have hfinal := (h (decodedName log)).output i _ (List.mem_map_of_mem hi) rfl
        rw [hfinal, hnone, helf]
        simp [DecodeJob.batchJob, helf]
    | none =>
        have hkept : final (decodedName log) = files (decodedName log) := by
          apply hother
          rintro other hother hsome heq
          obtain rfl := decodedName_injective heq
          simp [hjob] at hsome
        rw [hkept]
        cases hdecoded : files (decodedName log) with
        | some text => rfl
        | none =>
            have helf : files (elfName layout files log) = none := by
              by_contra helf
              rw [decodeLog_eq_some.mpr ⟨Option.isSome_iff_ne_none.mpr helf, hdecoded, rfl⟩] at hjob
              simp at hjob
            rw [helf]
            rfl
  case other =>
    intro name hname
    apply hother
    rintro log hlog - rfl
    obtain ⟨group, hgroup, hmem⟩ := d.mem_sampled_iff.mp hlog
    exact hname group hgroup log hmem rfl

theorem length_jobs (d : Decoding tools layout files logs) (decode : Text → Text → Text) :
    Batch.remaining ((d.batch decode).machine [] files).init =
      2 * (decodeUniqueLogs layout files
        (getUniqueCandidates tools layout files (scanLogs tools logs)) d.order).length := by
  rw [← d.split, List.length_flatten, List.map_ofFn, List.sum_ofFn, Finset.mul_sum]
  simp [Batch.remaining, Batch.stepsLeft, Batch.machine, batch]

end Decoding

/-! ## A second summary -/

section

variable {tools : Tools} {layout : Layout} {decode : Text → Text → Text} {files final : Files}
  {groups : List (List Text)}

theorem Decoded.stats (h : Decoded layout decode files groups final) (workdir : Text) :
    final (workdir ++ "/stats".toList) = files (workdir ++ "/stats".toList) :=
  h.other _ fun _ _ log _ => (decodedName_ne_stats log workdir).symm

theorem Decoded.workdir (h : Decoded layout decode files groups final) (log : Text) :
    workdirFromLogname layout final log = workdirFromLogname layout files log := by
  simp only [workdirFromLogname, h.stats]

theorem Decoded.candidate_id (h : Decoded layout decode files groups final) (s : Issues)
    (candidate : Candidate) :
    candidate.id tools layout final s = candidate.id tools layout files s := by
  simp only [Candidate.id, harnessFromLogname, h.workdir]

/-- The decoded logs do not change the groups. -/
theorem Decoded.uniqueCandidates (h : Decoded layout decode files groups final) (s : Issues) :
    getUniqueCandidates tools layout final s = getUniqueCandidates tools layout files s := by
  have hadd : addCandidate tools layout final s = addCandidate tools layout files s := by
    funext uniqueLogs candidate
    simp only [addCandidate, h.candidate_id]
  rw [getUniqueCandidates, hadd, getUniqueCandidates]

theorem Decoded.membersOf_eq (h : Decoded layout decode files groups final) (s : Issues) :
    membersOf tools layout final s = membersOf tools layout files s := by
  have hgrouping : uniqueGrouping tools layout final s = uniqueGrouping tools layout files s := by
    simp only [uniqueGrouping, h.candidate_id]
  funext logid
  rw [membersOf, hgrouping, membersOf]

theorem Decoded.decodeLog_eq_none (h : Decoded layout decode files groups final)
    {group : List Text} (hgroup : group ∈ groups) {log : Text} (hlog : log ∈ group.take maxSamples)
    (hpresent : (files log).isSome = true) : decodeLog layout final log = none := by
  have helf : final (elfName layout final log) = files (elfName layout files log) := by
    rw [elfName, elfName, h.workdir]
    exact h.other _ fun _ _ other _ => (decodedName_ne_elf other _).symm
  cases hkernel : files (elfName layout files log) with
  | none => simp [decodeLog, helf, hkernel]
  | some elf =>
      obtain ⟨text, htext⟩ := Option.isSome_iff_exists.mp hpresent
      have hdecoded : (final (decodedName log)).isSome = true := by
        rw [h.sampled group hgroup log hlog, hkernel, htext]
        cases files (decodedName log) <;> rfl
      simp [decodeLog, helf, hkernel, hdecoded]

theorem Decoded.second_run (d : Decoding tools layout files logs)
    (h : Decoded layout decode files
      ((getUniqueCandidates tools layout files (scanLogs tools logs)).keys.map
        (membersOf tools layout files (scanLogs tools logs))) final) {order : List Text}
    (horder : order.Perm (getUniqueCandidates tools layout final (scanLogs tools logs)).keys) :
    decodeUniqueLogs layout final (getUniqueCandidates tools layout final (scanLogs tools logs))
      order = [] := by
  rw [d.sound.decodeUniqueLogs_eq layout final horder, List.filterMap_eq_nil_iff]
  intro log hlog
  have hpresent := d.present log (d.sound.mem_of_mem_sampled layout final hlog)
  obtain ⟨logid, hlogid, hmem⟩ := List.mem_flatMap.mp hlog
  rw [h.membersOf_eq] at hmem
  rw [horder.mem_iff, h.uniqueCandidates] at hlogid
  exact h.decodeLog_eq_none (List.mem_map_of_mem hlogid) hmem hpresent

end

/--
However the jobs are split and interleaved, they come to an end, the first logs
of every group are decoded then, and a second summary has no job left.
-/
theorem decoding_exact {tools : Tools} {layout : Layout} {files : Files} {logs : List Text}
    (d : Decoding tools layout files logs) (decode : Text → Text → Text) :
    ∃ groups, UniqueGroups tools layout files logs groups ∧
      (∀ s, ((d.batch decode).machine [] files).Reachable s →
        (¬ Batch.Finished s → ∃ i s', Batch.step [] s i = some s') ∧
        (Batch.Finished s → Decoded layout decode files groups s.files ∧
          ∀ order : List Text,
            order.Perm (getUniqueCandidates tools layout s.files (scanLogs tools logs)).keys →
            decodeUniqueLogs layout s.files
              (getUniqueCandidates tools layout s.files (scanLogs tools logs)) order = [])) ∧
      ∀ schedule s, ((d.batch decode).machine [] files).run
          ((d.batch decode).machine [] files).init schedule = some s →
        schedule.length ≤ 2 * (decodeUniqueLogs layout files
          (getUniqueCandidates tools layout files (scanLogs tools logs)) d.order).length := by
  refine ⟨_, d.sound.uniqueGroups layout files, fun s hreached => ⟨?_, fun hfinished => ?_⟩, ?_⟩
  · exact Batch.exists_step_of_not_finished []
  · have hdecoded := d.decoded (Batch.settled_of_finished hreached hfinished)
    exact ⟨hdecoded, fun order => hdecoded.second_run d⟩
  · intro schedule s hrun
    rw [← d.length_jobs decode]
    exact le_of_add_le_left (Batch.length_le_of_run hrun)

/-! ## Two processes -/

set_option maxRecDepth 10000 in
def accessDecoding : Decoding accessTools accessLayout accessFiles accessLogs where
  sound := accessScan
  present := by decide +kernel
  order := (getUniqueCandidates accessTools accessLayout accessFiles
    (scanLogs accessTools accessLogs)).keys
  listed := .refl _
  count := 2
  chunks i :=
    if i = 0 then
      [⟨"a/w/target/vmlinux".toList, "./a/w/logs/crash_1.log".toList⟩,
        ⟨"a/w/target/vmlinux".toList, "./a/w/logs/crash_3.log".toList⟩]
    else [⟨"b/w/target/vmlinux".toList, "./b/w/logs/crash_2.log".toList⟩]
  split := by decide +kernel

/-- A decoder that puts a mark in front of the log. -/
def markLog (_ log : Text) : Text := '!' :: log

theorem decoding_exact_access :
    ∃ groups, UniqueGroups accessTools accessLayout accessFiles accessLogs groups ∧
      (∀ s, ((accessDecoding.batch markLog).machine [] accessFiles).Reachable s →
        (¬ Batch.Finished s → ∃ i s', Batch.step [] s i = some s') ∧
        (Batch.Finished s → Decoded accessLayout markLog accessFiles groups s.files ∧
          ∀ order : List Text,
            order.Perm (getUniqueCandidates accessTools accessLayout s.files
              (scanLogs accessTools accessLogs)).keys →
            decodeUniqueLogs accessLayout s.files (getUniqueCandidates accessTools accessLayout
              s.files (scanLogs accessTools accessLogs)) order = [])) ∧
      ∀ schedule s, ((accessDecoding.batch markLog).machine [] accessFiles).run
          ((accessDecoding.batch markLog).machine [] accessFiles).init schedule = some s →
        schedule.length ≤ 2 * (decodeUniqueLogs accessLayout accessFiles
          (getUniqueCandidates accessTools accessLayout accessFiles
            (scanLogs accessTools accessLogs)) accessDecoding.order).length :=
  decoding_exact accessDecoding markLog

example : (((accessDecoding.batch markLog).machine [] accessFiles).run
    ((accessDecoding.batch markLog).machine [] accessFiles).init
      ([0, 1, 0, 0, 1, 0] : List (Fin 2))).map
        (fun s => accessLogs.map fun log => s.files (decodedName log)) =
    some (List.replicate 3 (some ('!' :: accessLog))) := by
  decide +kernel

end TdvfFuzz.CrashSummary
