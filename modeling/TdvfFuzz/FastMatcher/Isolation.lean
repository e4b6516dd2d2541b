import TdvfFuzz.FastMatcher.Merging

/-!
# Files that panic

A file that panics takes its worker with it.  Once every worker has died, the
files left in the queue are not read.
-/

namespace TdvfFuzz.FastMatcher

open TdvfFuzz.Foundation

section

variable {S : Type} (R : RangeInclusiveSet S) (ctx : Context) (smatchData : SmatchData)

/-- The lines belong to a well-formed trace file that has the address. -/
def WellFormedAddress (files : List TraceFile) (a : Node) : Prop :=
  ∃ lines, some lines ∈ files ∧ WellFormed lines ∧
    EdgeAddress ctx smatchData (traceEdges lines).1 a

def Isolated (files : List TraceFile) (s : State S) : Prop :=
  ∀ a, WellFormedAddress ctx smatchData files a → a ∈ R.addresses s.rangesDb

/-- The files up to the one that takes the last of `nproc` workers with it. -/
def handedOut : ℕ → List TraceFile → List TraceFile
  | 0, _ => []
  | _, [] => []
  | nproc + 1, file :: rest =>
      file :: if Panics file then handedOut nproc rest else handedOut (nproc + 1) rest

variable {R ctx smatchData}

/-! ## A queue in its order -/

theorem pulled_append_queue {files : List TraceFile} {nproc : ℕ} {s : State S}
    (h : (workersOf R ctx smatchData files nproc).ReachableBy Fifo s) :
    s.pulled ++ s.queue = files := by
  refine Machine.ReachableBy.invariant (P := fun s => s.pulled ++ s.queue = files)
    rfl ?_ h
  intro s a s' hs hfifo hstep
  cases step_effect R ctx smatchData hstep with
  | @pull front back before after file worker hworkers hqueue =>
      obtain rfl : before = [] := List.length_eq_zero_iff.mp hfifo
      simpa [hqueue] using hs
  | _ => exact hs

theorem handedOut_append {nproc : ℕ} {pulled queue : List TraceFile}
    (halive : pulled = [] ∨ panicCount pulled.dropLast < nproc)
    (hend : queue = [] ∨ panicCount pulled = nproc) :
    handedOut nproc (pulled ++ queue) = pulled := by
  induction pulled generalizing nproc with
  | nil =>
      rcases hend with rfl | rfl
      · cases nproc <;> rfl
      · simp [panicCount, handedOut]
  | cons file rest ih =>
      have hcons : ∀ l, panicCount (file :: l) =
          panicCount l + if Panics file then 1 else 0 := by
        intro l
        simp [panicCount, List.countP_cons]
      have hrest : rest = [] ∧ 0 < nproc ∨
          panicCount rest.dropLast + (if Panics file then 1 else 0) < nproc := by
        cases rest with
        | nil => exact .inl ⟨rfl, by simpa [panicCount] using halive⟩
        | cons _ _ => exact .inr (by simpa [hcons] using halive)
      rw [hcons] at hend
      cases nproc with
      | zero => omega
      | succ nproc =>
          rw [List.cons_append, handedOut]
          by_cases hpanics : Panics file
          · simp only [hpanics, if_true] at hrest hend ⊢
            rw [ih (hrest.imp And.left fun h => by omega) (hend.imp_right fun h => by omega)]
          · simp only [hpanics, if_false] at hrest hend ⊢
            rw [ih (hrest.imp And.left fun h => by omega) (hend.imp_right fun h => by omega)]

theorem pulled_of_done {files : List TraceFile} {nproc : ℕ} {s : State S}
    (h : (workersOf R ctx smatchData files nproc).ReachableBy Fifo s) (hdone : Done s) :
    s.pulled = handedOut nproc files := by
  rw [← pulled_append_queue h]
  exact (handedOut_append (inv_of_reachable h.reachable).alive
    (queue_of_done h.reachable hdone)).symm

/-! ## Workers that all die -/

theorem exists_panics_mem (queue : List TraceFile) (h : 0 < panicCount queue) :
    ∃ before file after, queue = before ++ file :: after ∧ Panics file := by
  obtain ⟨file, hfile, hpanics⟩ := List.countP_pos_iff.mp h
  obtain ⟨before, after, hqueue⟩ := List.append_of_mem hfile
  exact ⟨before, file, after, hqueue, by simpa using hpanics⟩

theorem exists_dead {files : List TraceFile} {nproc dead : ℕ} (hdead : dead ≤ nproc)
    (hcount : nproc ≤ panicCount files) :
    ∃ queue pulled, panicCount queue + dead = panicCount files ∧
      (workersOf R ctx smatchData files nproc).Reachable
        ⟨queue, pulled, List.replicate dead .dead ++ List.replicate (nproc - dead) .idle,
          R.new⟩ := by
  induction dead with
  | zero => exact ⟨files, [], rfl, Machine.Reachable.init _⟩
  | succ dead ih =>
      obtain ⟨queue, pulled, hqueue, hreach⟩ := ih (by omega)
      obtain ⟨before, file, after, rfl, hpanics⟩ :=
        exists_panics_mem queue (by omega)
      have hidle : List.replicate (nproc - dead) Worker.idle =
          .idle :: List.replicate (nproc - (dead + 1)) (.idle : Worker S) := by
        rw [← List.replicate_succ]
        congr 1
        omega
      rw [hidle] at hreach
      have hpull : (workersOf R ctx smatchData files nproc).Reachable
          ⟨before ++ after, pulled ++ [file], List.replicate dead .dead ++
            .reading file :: List.replicate (nproc - (dead + 1)) .idle, R.new⟩ :=
        hreach.step (a := .pull dead before.length)
          (by simp [workersOf, step, List.eraseIdx_append_of_length_le])
      have hread : (workersOf R ctx smatchData files nproc).Reachable
          ⟨before ++ after, pulled ++ [file], List.replicate dead .dead ++
            .dead :: List.replicate (nproc - (dead + 1)) .idle, R.new⟩ :=
        hpull.step (a := .read dead)
          (by simp [workersOf, step, afterRead, readTraceFileGetRanges_eq_none.mpr hpanics])
      refine ⟨before ++ after, pulled ++ [file], ?_, ?_⟩
      · simp only [panicCount, List.countP_append, List.countP_cons, hpanics, decide_true,
          if_true] at hqueue ⊢
        omega
      · rw [List.replicate_succ', List.append_assoc]
        exact hread

/-- With enough files that panic, some run merges nothing. -/
theorem exists_starved {files : List TraceFile} {nproc : ℕ}
    (hcount : nproc ≤ panicCount files) :
    ∃ s, (workersOf R ctx smatchData files nproc).Reachable s ∧ Done s ∧
      R.addresses s.rangesDb = ∅ := by
  obtain ⟨queue, pulled, -, hreach⟩ := exists_dead (le_refl nproc) hcount
  refine ⟨_, hreach, ?_, R.addresses_new⟩
  intro w hw
  simp only [Nat.sub_self, List.replicate_zero, List.append_nil, List.mem_replicate] at hw
  rw [hw.2]
  rfl

theorem WellFormedAddress.mem {files : List TraceFile} {a : Node}
    (h : WellFormedAddress ctx smatchData files a) :
    a ∈ addressesOf ctx smatchData files := by
  obtain ⟨lines, hlines, hwell, hedge⟩ := h
  exact ⟨some lines, hlines, lines, rfl, hwell.traceEdges.1, hedge⟩

end

/--
Under every schedule, the well-formed files are merged as long as a worker
survives.  If the queue keeps its order, exactly the files handed out until the
last worker dies are merged.
-/
theorem isolated_iff {S : Type} (R : RangeInclusiveSet S) (ctx : Context)
    (smatchData : SmatchData) (files : List TraceFile) (nproc : ℕ) :
    ((∀ s, (workersOf R ctx smatchData files nproc).Reachable s → Done s →
        Isolated R ctx smatchData files s) ↔
      panicCount files < nproc ∨ ∀ a, ¬ WellFormedAddress ctx smatchData files a) ∧
    ∀ s, (workersOf R ctx smatchData files nproc).ReachableBy Fifo s → Done s →
      (Isolated R ctx smatchData files s ↔
        ∀ a, WellFormedAddress ctx smatchData files a →
          a ∈ addressesOf ctx smatchData (handedOut nproc files)) := by
  refine ⟨⟨fun hisolated => ?_, ?_⟩, fun s h hdone => ?_⟩
  · by_contra! hmany
    obtain ⟨hcount, a, ha⟩ := hmany
    obtain ⟨s, h, hdone, hempty⟩ := exists_starved hcount
    have := hisolated s h hdone a ha
    simp [hempty] at this
  · rintro (hfew | hnone) s h hdone a ha
    · rw [addresses_of_few_panics h hdone hfew]
      exact ha.mem
    · exact (hnone a ha).elim
  · rw [Isolated, addresses_of_done h.reachable hdone, pulled_of_done h hdone]

/-! ## One worker and two files -/

def brokenLines : Lines := [some "10,".toList]

def goodLines : Lines := [some "10,20".toList]

def oneWorker : Machine (State {l : List Interval // Separated l}) Action :=
  workersOf .lists (.ofRows []) [] [some brokenLines, some goodLines] 1

def starved : State {l : List Interval // Separated l} :=
  ⟨[some goodLines], [some brokenLines], [.dead], RangeInclusiveSet.lists.new⟩

theorem good_file_lost :
    oneWorker.ReachableBy Fifo starved ∧ Done starved ∧
      ¬ Isolated .lists (.ofRows []) [] [some brokenLines, some goodLines] starved := by
  have hpanics : Panics (some brokenLines) := by decide +kernel
  have hpull : oneWorker.ReachableBy Fifo
      { starved with workers := [.reading (some brokenLines)] } :=
    .step .init (a := .pull 0 0) rfl rfl
  refine ⟨.step hpull (a := .read 0) trivial ?_, by decide, fun hisolated => ?_⟩
  · simp [oneWorker, workersOf, step, afterRead, starved,
      readTraceFileGetRanges_eq_none.mpr hpanics]
  · have := hisolated 0x10 ⟨goodLines, by simp, by decide +kernel,
      .inl ⟨(0x10, 0x20), by decide +kernel, .inl rfl⟩⟩
    simp [starved] at this

end TdvfFuzz.FastMatcher
