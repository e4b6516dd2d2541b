import TdvfFuzz.Audit.Priority

/-!
# Transferring a review onto its own report

A reviewed report is written back to the same findings without their
annotations.  Every finding gets its own annotation back exactly when the first
record related to it is its own copy, or leaves the same status and comment.
-/

namespace TdvfFuzz.Audit

open TdvfFuzz.Foundation

/-! ## Terminated records -/

theorem strip_newline_cons (s : Text) : strip ('\n' :: s) = strip s := by
  simp [strip, stripBy, isSpace]

theorem map_strip_splitOn_newline_cons (s : Text) :
    (('\n' :: s).splitOn ';').map strip = (s.splitOn ';').map strip := by
  obtain ⟨first, rest, hsplit⟩ :=
    List.exists_cons_of_ne_nil (List.splitOn_ne_nil ';' s)
  rw [List.splitOn_cons_eq_if_modifyHead, if_neg (by decide), hsplit,
    List.modifyHead_cons, List.map_cons, List.map_cons, strip_newline_cons]

theorem map_strip_splitOn_terminated (records : List Text)
    (h : ∀ record ∈ records, ';' ∉ record) :
    ((records.flatMap (· ++ terminator)).splitOn ';').map strip =
      records.map strip ++ [[]] := by
  induction records with
  | nil => rfl
  | cons record rest ih =>
      have hrecord : ';' ∉ record := h record (by simp)
      have hrest := ih fun x hx => h x (by simp [hx])
      have htext : (record :: rest).flatMap (· ++ terminator) =
          record ++ ';' :: '\n' :: rest.flatMap (· ++ terminator) := by
        simp [terminator]
      rw [htext, splitOn_append_sep ';' record _ hrecord, List.map_cons,
        map_strip_splitOn_newline_cons, hrest]
      rfl

theorem terminated_injective {xs ys : List Text} (hxs : ∀ x ∈ xs, ';' ∉ x)
    (hys : ∀ y ∈ ys, ';' ∉ y)
    (h : xs.flatMap (· ++ terminator) = ys.flatMap (· ++ terminator)) : xs = ys := by
  induction xs generalizing ys with
  | nil =>
      cases ys with
      | nil => rfl
      | cons y ys => simp [terminator] at h
  | cons x xs ih =>
      cases ys with
      | nil => simp [terminator] at h
      | cons y ys =>
          have hfirst : x = y := by
            have hfields := congrArg (firstField ';') h
            simp only [List.flatMap_cons, terminator, String.reduceToList,
              List.append_assoc, List.cons_append] at hfields
            rwa [firstField_append_sep _ (hxs x (by simp)),
              firstField_append_sep _ (hys y (by simp))] at hfields
          subst hfirst
          simp only [List.flatMap_cons, List.append_cancel_left_eq] at h
          rw [ih (fun x hx => hxs x (by simp [hx]))
            (fun y hy => hys y (by simp [hy])) h]

/-! ## Reviewed reports -/

structure Reviewed where
  copy : Text
  bare : Text
  isCopy : IsCopy copy bare
  marked : (resultId bare).isSome
  trimmedCopy : strip copy = copy
  trimmedBare : strip bare = bare
  separated : ';' ∉ copy

theorem Reviewed.separatedBare (e : Reviewed) : ';' ∉ e.bare := fun h =>
  e.separated (e.isCopy.contains.subset h)

theorem Reviewed.bare_ne_nil (e : Reviewed) : e.bare ≠ [] := by
  intro h
  simpa [h] using e.marked

def reviewedText (report : List Reviewed) : Text :=
  (report.map Reviewed.copy).flatMap (· ++ terminator)

def bareText (report : List Reviewed) : Text :=
  (report.map Reviewed.bare).flatMap (· ++ terminator)

def reviewedList (report : List Reviewed) : List Text :=
  (reviewedText report).splitOn ';'

theorem map_strip_reviewedList (report : List Reviewed) :
    (reviewedList report).map strip = report.map Reviewed.copy ++ [[]] := by
  have hcopies : ∀ record ∈ report.map Reviewed.copy, ';' ∉ record := by
    simpa using fun e _ => e.separated
  rw [reviewedList, reviewedText, map_strip_splitOn_terminated _ hcopies,
    List.map_map]
  congr 1
  exact List.map_congr_left fun e _ => e.trimmedCopy

theorem filter_map_strip_bareText (report : List Reviewed) {keep : Text → Bool}
    (hkeep : ∀ e ∈ report, keep e.bare = true) (hnil : keep [] = false) :
    ((((bareText report).splitOn ';').map strip).filter keep) =
      report.map Reviewed.bare := by
  have hbares : ∀ record ∈ report.map Reviewed.bare, ';' ∉ record := by
    simpa using fun e _ => e.separatedBare
  have htrimmed : (report.map Reviewed.bare).map strip = report.map Reviewed.bare := by
    rw [List.map_map]
    exact List.map_congr_left fun e _ => e.trimmedBare
  rw [bareText, map_strip_splitOn_terminated _ hbares, htrimmed, List.filter_append,
    List.filter_eq_self.mpr (by simpa using hkeep)]
  simp [hnil]

/-- The script, run on the review and its bare report, reproduces the review. -/
def GivenBack (report : List Reviewed) : Prop :=
  ∀ (args : Args) (files : Files),
    files args.inputAnalyzed = some (reviewedText report) →
    files args.inputNew = some (bareText report) →
    ((files args.outputFile).isSome → args.force = true) →
    (main args files).2 = .finished ∧
      (main args files).1 args.outputFile = some (reviewedText report)

/-- The first record related to the finding leaves the finding's own annotation. -/
def OwnFirst (report : List Reviewed) (e : Reviewed) : Prop :=
  ∃ new a, newRecord e.bare = .ok (some new) ∧
    FirstRelated new (reviewedList report) a ∧
    (strip a = e.copy ∨ ¬ e.bare <:+: strip a ∧
      annotate (statusAnalyzed (strip a)) (commentAnalyzed (strip a)) e.bare = e.copy)

theorem writes_iff_ownFirst {report : List Reviewed} {e : Reviewed}
    (he : e ∈ report) :
    Writes (reviewedList report) e.bare e.copy ↔ OwnFirst report e := by
  constructor
  · rintro ⟨found, hrecord⟩
    rcases transferRecord_ok hrecord with ⟨hnone, -⟩ |
      ⟨new, hnew, ⟨a, v, record, hdecides, hwritten, hout⟩ | ⟨hnext, -⟩⟩
    · simp at hnone
    · obtain ⟨rfl, -⟩ : e.copy = record ∧ found = true := by simpa using hout
      obtain ⟨hresult, -⟩ := newRecord_ok hnew
      refine ⟨new, a, hnew, hdecides.firstRelated hnew, ?_⟩
      obtain ⟨-, -, -, -, hjudge, -⟩ := hdecides
      rcases judge_ok hjudge with rfl | ⟨rfl, -⟩ | ⟨rfl, hcontains, -⟩ |
        ⟨rfl, hcontains, -⟩ <;>
        simp only [written, reduceCtorEq, Option.some.injEq, hresult] at hwritten
      · exact .inl hwritten
      · exact .inr ⟨hresult ▸ hcontains, hwritten⟩
      · exact .inr ⟨hresult ▸ hcontains, hwritten⟩
    · -- the copy itself is in the list, so something is found
      have hmem : e.copy ∈ (reviewedList report).map strip := by
        rw [map_strip_reviewedList]
        simpa using .inl ⟨e, he, rfl⟩
      obtain ⟨a, ha, hcopy⟩ := List.mem_map.mp hmem
      have hcontains : new.resultNew <:+: e.copy :=
        (newRecord_ok hnew).1 ▸ e.isCopy.contains
      have hnil : e.copy ≠ [] := by
        intro hnil
        have := e.isCopy.contains
        rw [hnil, List.infix_nil] at this
        exact e.bare_ne_nil this
      have := hnext a ha
      rw [hcopy, judge_of_contains hnil hcontains] at this
      simp at this
  · rintro ⟨new, a, hnew, hfirst, hcopy | ⟨hcontains, hrebuilt⟩⟩
    · exact ⟨true, transferRecord_of_decides hnew
        (hfirst.decides_verbatim hnew (hcopy ▸ e.isCopy.contains)) (congrArg some hcopy)⟩
    · obtain ⟨hresult, -⟩ := newRecord_ok hnew
      rcases hfirst.decides_weak hnew hcontains with hdecides | hdecides
      · exact ⟨true, transferRecord_of_decides hnew hdecides
          (by rw [written, hresult, hrebuilt])⟩
      · exact ⟨true, transferRecord_of_decides hnew hdecides
          (by rw [written, hresult, hrebuilt])⟩

theorem forall₂_writes_iff (report : List Reviewed) :
    List.Forall₂ (Writes (reviewedList report)) (report.map Reviewed.bare)
      (report.map Reviewed.copy) ↔ ∀ e ∈ report, OwnFirst report e := by
  rw [List.forall₂_map_left_iff, List.forall₂_map_right_iff, List.forall₂_same]
  exact forall₂_congr fun e he => writes_iff_ownFirst he

theorem exists_of_forall₂_of_mem {α β : Type} {R : α → β → Prop} {xs : List α} {ys : List β} {y : β}
    (h : List.Forall₂ R xs ys) (hy : y ∈ ys) : ∃ x ∈ xs, R x y := by
  induction h with
  | nil => simp at hy
  | cons hfirst hrest ih =>
      rcases List.mem_cons.mp hy with rfl | hy
      · exact ⟨_, by simp, hfirst⟩
      · obtain ⟨x, hx, hR⟩ := ih hy
        exact ⟨x, by simp [hx], hR⟩

theorem separated_of_writes {dataAnalyzed dataNew : Text} {records : List Text}
    (h : List.Forall₂ (Writes (dataAnalyzed.splitOn ';')) (markedRecords dataNew) records) :
    ∀ record ∈ records, ';' ∉ record := by
  intro record hrecord
  obtain ⟨n, hn, hwrites⟩ := exists_of_forall₂_of_mem h hrecord
  exact (hwrites.carries (not_mem_of_mem_markedRecords hn)).2

def probeArgs : Args := ⟨"old".toList, "new".toList, "out".toList, false, false⟩

def probeFiles (report : List Reviewed) : Files := fun name =>
  if name = probeArgs.inputAnalyzed then some (reviewedText report)
  else if name = probeArgs.inputNew then some (bareText report)
  else none

theorem givenBack_iff (report : List Reviewed) :
    GivenBack report ↔ ∀ e ∈ report, OwnFirst report e := by
  rw [← forall₂_writes_iff]
  constructor
  · intro h
    have hanalyzed : probeFiles report probeArgs.inputAnalyzed =
        some (reviewedText report) := by simp [probeFiles]
    have hnew : probeFiles report probeArgs.inputNew = some (bareText report) := by
      simp [probeFiles, probeArgs]
    have hout : (probeFiles report probeArgs.outputFile).isSome →
        probeArgs.force = true := by simp [probeFiles, probeArgs]
    obtain ⟨hfinished, houtput⟩ := h probeArgs (probeFiles report) hanalyzed hnew hout
    obtain ⟨records, hrecords, hwrites⟩ := main_writes hanalyzed hnew hfinished
    have hseparated := separated_of_writes hwrites
    rw [markedRecords, filter_map_strip_bareText report
      (by simpa using fun e _ => ⟨e.bare_ne_nil, e.marked⟩) (by simp)] at hwrites
    have hsame : records = report.map Reviewed.copy :=
      terminated_injective hseparated (by simpa using fun e _ => e.separated)
        (by simpa [reviewedText] using hrecords.symm.trans houtput)
    exact hsame ▸ hwrites
  · intro h args files hanalyzed hnew hforce
    obtain ⟨final, hall, hfinal⟩ := transferAll_of_writes args.t
      (reviewedList report) ((bareText report).splitOn ';') {}
      (report.map Reviewed.copy) (by
        rw [filter_map_strip_bareText report
          (by simpa using fun e _ => e.bare_ne_nil) (by simp)]
        exact h)
    obtain ⟨houtput, hexit⟩ := main_eq hanalyzed hnew hforce hall
    exact ⟨hexit, by simpa [hfinal, reviewedText] using houtput⟩

/-! ## The strongest match -/

/--
The strongest match wins exactly when it comes first; and a review is given
back exactly when that holds of its own copies.
-/
theorem strongestWins_iff (resultListAnalyzed : List Text) (n : Text)
    (report : List Reviewed) :
    (StrongestWins resultListAnalyzed n ↔ StrongestFirst resultListAnalyzed n) ∧
    (GivenBack report ↔ ∀ e ∈ report, OwnFirst report e) :=
  ⟨⟨fun h => h.strongestFirst, fun h => h.strongestWins⟩, givenBack_iff report⟩

def neighbour : Text := "excluded	a.c:10 f() warn: {2}
	old".toList

def concern : Text := "concern	a.c:12 f() warn: {7}
	read".toList

def concernBare : Text := "a.c:12 f() warn: {7}
	read".toList

/-- The excluded neighbour comes first, and the concern is written as excluded. -/
theorem concern_becomes_excluded :
    ¬ StrongestWins [neighbour, concern] concernBare ∧
    transferRecord [neighbour, concern] concernBare =
      .ok (some ⟨"excluded	a.c:12 f() warn: {7}
	read".toList, true⟩) := by
  have hrecord : transferRecord [neighbour, concern] concernBare =
      .ok (some ⟨"excluded	a.c:12 f() warn: {7}
	read".toList, true⟩) := by
    decide +kernel
  refine ⟨fun h => ?_, hrecord⟩
  have hcopy : HasCopy [neighbour, concern] concernBare :=
    ⟨concern, by simp, "concern	".toList, [], by decide,
      .inr ⟨"concern".toList, by decide, by decide, by decide⟩, .inl rfl⟩
  obtain ⟨a, ha, -, hcopied⟩ := h.copy hcopy
  rw [hrecord] at hcopied
  have hdifferent : ∀ a ∈ [neighbour, concern],
      "excluded	a.c:12 f() warn: {7}
	read".toList ≠ strip a := by decide
  exact hdifferent a ha (by simpa using hcopied)

end TdvfFuzz.Audit
