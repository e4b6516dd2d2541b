import Mathlib.Data.List.Perm.Basic
import TdvfFuzz.FastMatcher.Ranges
import TdvfFuzz.Foundation.Transition

/-!
# The worker threads

`start` spawns workers that pull trace files from a shared queue, read them and
merge their ranges into `ranges_db` under its lock.  A panic ends its worker
only.  Steps of different workers interleave in any order.
-/

namespace TdvfFuzz.FastMatcher

open TdvfFuzz.Foundation

/-! ## The system -/

inductive Worker (S : Type) where
  | idle
  | reading (file : TraceFile)
  | waiting (res : S)
  | merging (rest : List Interval)
  | finished
  | dead

structure State (S : Type) where
  queue : List TraceFile
  /-- The files handed out so far, in this order. -/
  pulled : List TraceFile
  workers : List (Worker S)
  rangesDb : S

/-- The step of a worker; `position` is the place in the queue of a pulled file. -/
inductive Action where
  | pull (worker position : ℕ)
  | stop (worker : ℕ)
  | read (worker : ℕ)
  | lock (worker : ℕ)
  | insert (worker : ℕ)
  | unlock (worker : ℕ)
  deriving DecidableEq, Repr

def Worker.isMerging {S : Type} : Worker S → Bool
  | .merging _ => true
  | _ => false

section

variable {S : Type} (R : RangeInclusiveSet S) (ctx : Context) (smatchData : SmatchData)

/-- `none` from `readTraceFileGetRanges` is a panic, which ends the thread. -/
def afterRead (file : TraceFile) : Worker S :=
  match readTraceFileGetRanges R ctx smatchData file with
  | some res => .waiting res
  | none => .dead

def step (s : State S) : Action → Option (State S)
  | .pull worker position =>
      match s.workers[worker]?, s.queue[position]? with
      | some .idle, some file =>
          some { s with
            queue := s.queue.eraseIdx position
            pulled := s.pulled ++ [file]
            workers := s.workers.set worker (.reading file) }
      | _, _ => none
  | .stop worker =>
      match s.workers[worker]?, s.queue with
      | some .idle, [] => some { s with workers := s.workers.set worker .finished }
      | _, _ => none
  | .read worker =>
      match s.workers[worker]? with
      | some (.reading file) =>
          some { s with workers := s.workers.set worker (afterRead R ctx smatchData file) }
      | _ => none
  | .lock worker =>
      match s.workers[worker]? with
      | some (.waiting res) =>
          if s.workers.any Worker.isMerging then none
          else some { s with workers := s.workers.set worker (.merging (R.iter res)) }
      | _ => none
  | .insert worker =>
      match s.workers[worker]? with
      | some (.merging (range :: rest)) =>
          some { s with
            workers := s.workers.set worker (.merging rest)
            rangesDb := R.insert s.rangesDb range }
      | _ => none
  | .unlock worker =>
      match s.workers[worker]? with
      | some (.merging []) => some { s with workers := s.workers.set worker .idle }
      | _ => none

def workersOf (files : List TraceFile) (nproc : ℕ) : Machine (State S) Action where
  init := ⟨files, [], List.replicate nproc .idle, R.new⟩
  step := step R ctx smatchData

def Worker.isEnded {S : Type} : Worker S → Bool
  | .finished | .dead => true
  | _ => false

/-- All threads have ended, so the `join` loop is through. -/
def Done (s : State S) : Prop := ∀ w ∈ s.workers, w.isEnded

instance (s : State S) : Decidable (Done s) :=
  inferInstanceAs (Decidable (∀ w ∈ s.workers, w.isEnded))

/-- A queue that hands out its oldest file. -/
def Fifo (_ : State S) : Action → Prop
  | .pull _ position => position = 0
  | _ => True

/-! ## What a step can do -/

inductive Effect (s : State S) : Action → State S → Prop
  | pull {front back : List (Worker S)} {before after : List TraceFile}
      {file : TraceFile} (worker : ℕ) (hworkers : s.workers = front ++ .idle :: back)
      (hqueue : s.queue = before ++ file :: after) :
      Effect s (.pull worker before.length)
        ⟨before ++ after, s.pulled ++ [file], front ++ .reading file :: back, s.rangesDb⟩
  | stop {front back : List (Worker S)} (worker : ℕ)
      (hworkers : s.workers = front ++ .idle :: back) (hqueue : s.queue = []) :
      Effect s (.stop worker) { s with workers := front ++ .finished :: back }
  | read {front back : List (Worker S)} {file : TraceFile} (worker : ℕ)
      (hworkers : s.workers = front ++ .reading file :: back) :
      Effect s (.read worker)
        { s with workers := front ++ afterRead R ctx smatchData file :: back }
  | lock {front back : List (Worker S)} {res : S} (worker : ℕ)
      (hworkers : s.workers = front ++ .waiting res :: back) :
      Effect s (.lock worker) { s with workers := front ++ .merging (R.iter res) :: back }
  | insert {front back : List (Worker S)} {range : Interval} {rest : List Interval}
      (worker : ℕ) (hworkers : s.workers = front ++ .merging (range :: rest) :: back) :
      Effect s (.insert worker)
        { s with
          workers := front ++ .merging rest :: back
          rangesDb := R.insert s.rangesDb range }
  | unlock {front back : List (Worker S)} (worker : ℕ)
      (hworkers : s.workers = front ++ .merging [] :: back) :
      Effect s (.unlock worker) { s with workers := front ++ .idle :: back }

theorem exists_set_split {α : Type} {xs : List α} {n : ℕ} {x : α} (h : xs[n]? = some x) :
    ∃ front back, front.length = n ∧ xs = front ++ x :: back ∧
      xs.eraseIdx n = front ++ back ∧ ∀ y, xs.set n y = front ++ y :: back := by
  induction xs generalizing n with
  | nil => simp at h
  | cons z xs ih =>
      cases n with
      | zero =>
          obtain rfl : z = x := by simpa using h
          exact ⟨[], xs, rfl, rfl, rfl, fun y => rfl⟩
      | succ n =>
          obtain ⟨front, back, hlength, hxs, herase, hset⟩ := ih (by simpa using h)
          exact ⟨z :: front, back, by simp [hlength], by simp [hxs], by simp [herase],
            fun y => by simp [hset]⟩

theorem step_effect {s s' : State S} {a : Action} (h : step R ctx smatchData s a = some s') :
    Effect R ctx smatchData s a s' := by
  cases a with
  | pull worker position =>
      simp only [step] at h
      split at h
      case h_2 => simp at h
      case h_1 file hworker hfile =>
        obtain ⟨front, back, -, hworkers, -, hset⟩ := exists_set_split hworker
        obtain ⟨before, after, rfl, hqueue, herase, -⟩ := exists_set_split hfile
        obtain rfl := Option.some.inj h
        rw [hset, herase]
        exact .pull worker hworkers hqueue
  | stop worker =>
      simp only [step] at h
      split at h
      case h_2 => simp at h
      case h_1 hworker hqueue =>
        obtain ⟨front, back, -, hworkers, -, hset⟩ := exists_set_split hworker
        obtain rfl := Option.some.inj h
        rw [hset]
        exact .stop worker hworkers hqueue
  | read worker =>
      simp only [step] at h
      split at h
      case h_2 => simp at h
      case h_1 file hworker =>
        obtain ⟨front, back, -, hworkers, -, hset⟩ := exists_set_split hworker
        obtain rfl := Option.some.inj h
        rw [hset]
        exact .read worker hworkers
  | lock worker =>
      simp only [step] at h
      split at h
      case h_2 => simp at h
      case h_1 res hworker =>
        obtain ⟨front, back, -, hworkers, -, hset⟩ := exists_set_split hworker
        split at h
        · simp at h
        · obtain rfl := Option.some.inj h
          rw [hset]
          exact .lock worker hworkers
  | insert worker =>
      simp only [step] at h
      split at h
      case h_2 => simp at h
      case h_1 range rest hworker =>
        obtain ⟨front, back, -, hworkers, -, hset⟩ := exists_set_split hworker
        obtain rfl := Option.some.inj h
        rw [hset]
        exact .insert worker hworkers
  | unlock worker =>
      simp only [step] at h
      split at h
      case h_2 => simp at h
      case h_1 hworker =>
        obtain ⟨front, back, -, hworkers, -, hset⟩ := exists_set_split hworker
        obtain rfl := Option.some.inj h
        rw [hset]
        exact .unlock worker hworkers

/-! ## Every run ends -/

def Worker.weight : Worker S → ℕ
  | .idle => 1
  | .reading file =>
      match afterRead R ctx smatchData file with
      | .waiting res => (R.iter res).length + 4
      | _ => 1
  | .waiting res => (R.iter res).length + 3
  | .merging rest => rest.length + 2
  | .finished => 0
  | .dead => 0

def remaining (s : State S) : ℕ :=
  ((s.queue.map Worker.reading ++ s.workers).map (Worker.weight R ctx smatchData)).sum

theorem weight_afterRead (file : TraceFile) :
    (Worker.reading file).weight R ctx smatchData =
      (afterRead R ctx smatchData file).weight R ctx smatchData + 1 := by
  simp only [Worker.weight, afterRead]
  cases readTraceFileGetRanges R ctx smatchData file <;> rfl

theorem remaining_step {s s' : State S} {a : Action} (h : Effect R ctx smatchData s a s') :
    remaining R ctx smatchData s' + 1 = remaining R ctx smatchData s := by
  cases h with
  | pull worker hworkers hqueue =>
      simp [remaining, hworkers, hqueue, Worker.weight]
      omega
  | stop worker hworkers hqueue =>
      simp [remaining, hworkers, Worker.weight]
      omega
  | read worker hworkers =>
      simp [remaining, hworkers, weight_afterRead]
      omega
  | lock worker hworkers =>
      simp [remaining, hworkers, Worker.weight]
      omega
  | insert worker hworkers =>
      simp [remaining, hworkers, Worker.weight]
      omega
  | unlock worker hworkers =>
      simp [remaining, hworkers, Worker.weight]
      omega

theorem exists_step_of_merging {s : State S} {n : ℕ} {rest : List Interval}
    (h : s.workers[n]? = some (.merging rest)) :
    ∃ a, Fifo s a ∧ (step R ctx smatchData s a).isSome := by
  cases rest with
  | nil => exact ⟨.unlock n, trivial, by simp [step, h]⟩
  | cons range rest => exact ⟨.insert n, trivial, by simp [step, h]⟩

theorem exists_step_of_not_done {s : State S} (h : ¬ Done s) :
    ∃ a, Fifo s a ∧ (step R ctx smatchData s a).isSome := by
  simp only [Done, not_forall] at h
  obtain ⟨w, hw, hrunning⟩ := h
  obtain ⟨n, hn⟩ := List.getElem?_of_mem hw
  cases w with
  | idle =>
      cases hqueue : s.queue with
      | nil => exact ⟨.stop n, trivial, by simp [step, hn, hqueue]⟩
      | cons file rest => exact ⟨.pull n 0, rfl, by simp [step, hn, hqueue]⟩
  | reading file => exact ⟨.read n, trivial, by simp [step, hn]⟩
  | waiting res =>
      by_cases hmerging : s.workers.any Worker.isMerging
      · obtain ⟨w, hw, hmerging⟩ := List.any_eq_true.mp hmerging
        obtain ⟨m, hm⟩ := List.getElem?_of_mem hw
        cases w with
        | merging rest => exact exists_step_of_merging R ctx smatchData hm
        | _ => simp [Worker.isMerging] at hmerging
      · exact ⟨.lock n, trivial, by simp [step, hn, hmerging]⟩
  | merging rest => exact exists_step_of_merging R ctx smatchData hn
  | finished => exact (hrunning rfl).elim
  | dead => exact (hrunning rfl).elim

/-- From every reachable state all threads can run to their end. -/
theorem exists_done {files : List TraceFile} {nproc : ℕ} {s : State S}
    (h : (workersOf R ctx smatchData files nproc).ReachableBy Fifo s) :
    ∃ s', (workersOf R ctx smatchData files nproc).ReachableBy Fifo s' ∧ Done s' := by
  obtain ⟨n, hn⟩ : ∃ n, remaining R ctx smatchData s = n := ⟨_, rfl⟩
  induction n generalizing s with
  | zero =>
      by_contra hnone
      obtain ⟨a, -, hstep⟩ := exists_step_of_not_done R ctx smatchData
        fun hdone => hnone ⟨s, h, hdone⟩
      obtain ⟨s', hs'⟩ := Option.isSome_iff_exists.mp hstep
      have := remaining_step R ctx smatchData (step_effect R ctx smatchData hs')
      omega
  | succ n ih =>
      by_cases hdone : Done s
      · exact ⟨s, h, hdone⟩
      · obtain ⟨a, hfifo, hstep⟩ := exists_step_of_not_done R ctx smatchData hdone
        obtain ⟨s', hs'⟩ := Option.isSome_iff_exists.mp hstep
        have := remaining_step R ctx smatchData (step_effect R ctx smatchData hs')
        exact ih (.step h hfifo hs') (by omega)

end

end TdvfFuzz.FastMatcher
