import TdvfFuzz.FastMatcher.Workers

/-!
# What the workers merge

In every reachable state the addresses of the files handed out so far are in
the database or in the hands of a worker, and nothing else is.  Every file that
panics costs one worker.
-/

namespace TdvfFuzz.FastMatcher

open TdvfFuzz.Foundation

section

variable {S : Type} (R : RangeInclusiveSet S) (ctx : Context) (smatchData : SmatchData)

/-! ## Invariants -/

/-- The addresses of the readable ones among some files. -/
def addressesOf (files : List TraceFile) : Set Node :=
  {a | ∃ file ∈ files, FileAddress ctx smatchData file a}

def Worker.pending : Worker S → Set Node
  | .reading file => {a | FileAddress ctx smatchData file a}
  | .waiting res => R.addresses res
  | .merging rest => covered rest
  | _ => ∅

def visible (s : State S) : Set Node :=
  {a | a ∈ R.addresses s.rangesDb ∨ ∃ w ∈ s.workers, a ∈ w.pending R ctx smatchData}

def Worker.isDoomed : Worker S → Bool
  | .reading file => decide (Panics file)
  | .dead => true
  | _ => false

def panicCount (files : List TraceFile) : ℕ := files.countP fun file => Panics file

structure Inv (files : List TraceFile) (nproc : ℕ) (s : State S) : Prop where
  perm : (s.pulled ++ s.queue).Perm files
  length : s.workers.length = nproc
  visible_eq : visible R ctx smatchData s = addressesOf ctx smatchData s.pulled
  doomed_eq : s.workers.countP Worker.isDoomed = panicCount s.pulled
  alive : s.pulled = [] ∨ panicCount s.pulled.dropLast < nproc
  stopped : .finished ∈ s.workers → s.queue = []

variable {R ctx smatchData}

theorem not_fileAddress_of_panics {file : TraceFile} (h : Panics file) (a : Node) :
    ¬ FileAddress ctx smatchData file a := by
  rintro ⟨lines, rfl, hpanicked, -⟩
  simp [Panics, hpanicked] at h

theorem afterRead_spec (file : TraceFile) :
    (afterRead R ctx smatchData file).pending R ctx smatchData =
      {a | FileAddress ctx smatchData file a} ∧
    (afterRead R ctx smatchData file).isDoomed = decide (Panics file) ∧
    .finished ≠ afterRead R ctx smatchData file := by
  unfold afterRead
  cases hread : readTraceFileGetRanges R ctx smatchData file with
  | none =>
      have hpanics := readTraceFileGetRanges_eq_none.mp hread
      refine ⟨?_, by simp [Worker.isDoomed, hpanics], by simp⟩
      ext a
      simp [Worker.pending, not_fileAddress_of_panics hpanics]
  | some res =>
      have hpanics : ¬ Panics file := fun h => by
        simp [readTraceFileGetRanges_eq_none.mpr h] at hread
      exact ⟨addresses_readTraceFileGetRanges hread, by simp [Worker.isDoomed, hpanics],
        by simp⟩

theorem mem_visible {s : State S} {a : Node} {front back : List (Worker S)} {w : Worker S}
    (h : s.workers = front ++ w :: back) :
    a ∈ visible R ctx smatchData s ↔
      (a ∈ R.addresses s.rangesDb ∨ ∃ x ∈ front ++ back, a ∈ x.pending R ctx smatchData) ∨
        a ∈ w.pending R ctx smatchData := by
  simp only [visible, Set.mem_ofPred_eq, h, List.mem_append, List.mem_cons]
  grind

theorem visible_step {s s' : State S} {a : Action} (h : Effect R ctx smatchData s a s')
    (hs : visible R ctx smatchData s = addressesOf ctx smatchData s.pulled) :
    visible R ctx smatchData s' = addressesOf ctx smatchData s'.pulled := by
  ext x
  have hx : x ∈ visible R ctx smatchData s ↔ x ∈ addressesOf ctx smatchData s.pulled := by
    rw [hs]
  cases h with
  | pull worker hworkers hqueue =>
      rw [mem_visible hworkers] at hx
      rw [mem_visible rfl]
      simp only [addressesOf, Set.mem_ofPred_eq, List.mem_append, List.mem_singleton] at hx ⊢
      simp only [Worker.pending, Set.mem_empty_iff_false, or_false, Set.mem_ofPred_eq] at hx ⊢
      rw [hx]
      grind
  | stop worker hworkers hqueue =>
      rw [mem_visible hworkers] at hx
      rw [mem_visible rfl]
      exact hx
  | read worker hworkers =>
      rw [mem_visible hworkers] at hx
      rw [mem_visible rfl, (afterRead_spec _).1]
      exact hx
  | lock worker hworkers =>
      rw [mem_visible hworkers] at hx
      rw [mem_visible rfl]
      exact hx
  | insert worker hworkers =>
      rw [mem_visible hworkers] at hx
      rw [mem_visible rfl]
      simp only [Worker.pending, R.addresses_insert, covered_cons, Set.mem_union] at hx ⊢
      grind
  | unlock worker hworkers =>
      rw [mem_visible hworkers] at hx
      rw [mem_visible rfl]
      simpa [Worker.pending] using hx

theorem doomed_step {s s' : State S} {a : Action} (h : Effect R ctx smatchData s a s')
    (hs : s.workers.countP Worker.isDoomed = panicCount s.pulled) :
    s'.workers.countP Worker.isDoomed = panicCount s'.pulled := by
  cases h with
  | pull worker hworkers hqueue =>
      rw [hworkers] at hs
      simp [panicCount, Worker.isDoomed, List.countP_cons] at hs ⊢
      omega
  | read worker hworkers =>
      rw [hworkers] at hs
      rw [List.countP_append, List.countP_cons] at hs ⊢
      rw [(afterRead_spec _).2.1]
      exact hs
  | stop worker hworkers hqueue =>
      rw [hworkers] at hs
      simpa [Worker.isDoomed] using hs
  | lock worker hworkers =>
      rw [hworkers] at hs
      simpa [Worker.isDoomed] using hs
  | insert worker hworkers =>
      rw [hworkers] at hs
      simpa [Worker.isDoomed] using hs
  | unlock worker hworkers =>
      rw [hworkers] at hs
      simpa [Worker.isDoomed] using hs

theorem stopped_step {s s' : State S} {a : Action} (h : Effect R ctx smatchData s a s')
    (hs : .finished ∈ s.workers → s.queue = []) :
    .finished ∈ s'.workers → s'.queue = [] := by
  cases h with
  | pull worker hworkers hqueue =>
      rw [hworkers, hqueue] at hs
      intro hfinished
      simp at hs hfinished
      exact absurd hfinished (by simpa using hs)
  | stop worker hworkers hqueue => exact fun _ => hqueue
  | read worker hworkers =>
      rw [hworkers] at hs
      simpa [(afterRead_spec _).2.2] using hs
  | lock worker hworkers =>
      rw [hworkers] at hs
      simpa using hs
  | insert worker hworkers =>
      rw [hworkers] at hs
      simpa using hs
  | unlock worker hworkers =>
      rw [hworkers] at hs
      simpa using hs

theorem length_step {s s' : State S} {a : Action} (h : Effect R ctx smatchData s a s') :
    s'.workers.length = s.workers.length := by
  cases h <;> simp_all

theorem perm_step {s s' : State S} {a : Action} (h : Effect R ctx smatchData s a s') :
    (s'.pulled ++ s'.queue).Perm (s.pulled ++ s.queue) := by
  cases h with
  | pull worker hworkers hqueue =>
      simp only [hqueue, List.append_assoc, List.singleton_append]
      exact List.perm_middle.symm.append_left s.pulled
  | _ => exact List.Perm.refl _

theorem alive_step {nproc : ℕ} {s s' : State S} {a : Action}
    (h : Effect R ctx smatchData s a s') (hlength : s.workers.length = nproc)
    (hdoomed : s.workers.countP Worker.isDoomed = panicCount s.pulled)
    (hs : s.pulled = [] ∨ panicCount s.pulled.dropLast < nproc) :
    s'.pulled = [] ∨ panicCount s'.pulled.dropLast < nproc := by
  cases h with
  | @pull front back before after file worker hworkers hqueue =>
      right
      rw [List.dropLast_concat, ← hdoomed, ← hlength, hworkers]
      have hfront := List.countP_le_length (p := Worker.isDoomed) (l := front)
      have hback := List.countP_le_length (p := Worker.isDoomed) (l := back)
      simp [Worker.isDoomed]
      omega
  | _ => exact hs

theorem inv_of_reachable {files : List TraceFile} {nproc : ℕ} {s : State S}
    (h : (workersOf R ctx smatchData files nproc).Reachable s) :
    Inv R ctx smatchData files nproc s := by
  refine Machine.Reachable.invariant (P := Inv R ctx smatchData files nproc) ?_ ?_ h
  · refine ⟨by simp [workersOf], by simp [workersOf], ?_, ?_, .inl rfl, ?_⟩
    · ext a
      simp [visible, workersOf, addressesOf, Worker.pending, List.mem_replicate]
    · simp [workersOf, panicCount, Worker.isDoomed, List.countP_replicate]
    · simp [workersOf, List.mem_replicate]
  · intro s a s' hinv hstep
    have heffect := step_effect R ctx smatchData hstep
    exact ⟨(perm_step heffect).trans hinv.perm,
      (length_step heffect).trans hinv.length,
      visible_step heffect hinv.visible_eq,
      doomed_step heffect hinv.doomed_eq,
      alive_step heffect hinv.length hinv.doomed_eq hinv.alive,
      stopped_step heffect hinv.stopped⟩

/-! ## When all threads have ended -/

theorem Done.visible_eq {s : State S} (h : Done s) :
    visible R ctx smatchData s = R.addresses s.rangesDb := by
  ext a
  simp only [visible, Set.mem_ofPred_eq, or_iff_left_iff_imp]
  rintro ⟨w, hw, ha⟩
  have := h w hw
  cases w <;> simp_all [Worker.pending, Worker.isEnded]

/-- The database is the union of the files that were handed out. -/
theorem addresses_of_done {files : List TraceFile} {nproc : ℕ} {s : State S}
    (h : (workersOf R ctx smatchData files nproc).Reachable s) (hdone : Done s) :
    R.addresses s.rangesDb = addressesOf ctx smatchData s.pulled := by
  calc R.addresses s.rangesDb
      _ = visible R ctx smatchData s := hdone.visible_eq.symm
      _ = addressesOf ctx smatchData s.pulled := (inv_of_reachable h).visible_eq

/-- Either a worker has seen the empty queue, or each has died of a file. -/
theorem queue_of_done {files : List TraceFile} {nproc : ℕ} {s : State S}
    (h : (workersOf R ctx smatchData files nproc).Reachable s) (hdone : Done s) :
    s.queue = [] ∨ panicCount s.pulled = nproc := by
  have hinv := inv_of_reachable h
  by_cases hfinished : .finished ∈ s.workers
  · exact .inl (hinv.stopped hfinished)
  · right
    rw [← hinv.doomed_eq, ← hinv.length, List.countP_eq_length]
    intro w hw
    have := hdone w hw
    cases w <;> simp_all [Worker.isDoomed, Worker.isEnded]

theorem addresses_of_few_panics {files : List TraceFile} {nproc : ℕ} {s : State S}
    (h : (workersOf R ctx smatchData files nproc).Reachable s) (hdone : Done s)
    (hfew : panicCount files < nproc) :
    R.addresses s.rangesDb = addressesOf ctx smatchData files := by
  have hperm := (inv_of_reachable h).perm
  have hqueue : s.queue = [] := by
    rcases queue_of_done h hdone with hqueue | hcount
    · exact hqueue
    · have := hperm.countP_eq (fun file => decide (Panics file))
      simp only [panicCount, List.countP_append] at hcount hfew this
      omega
  rw [hqueue, List.append_nil] at hperm
  rw [addresses_of_done h hdone]
  ext a
  simp [addressesOf, hperm.mem_iff]

end

end TdvfFuzz.FastMatcher
