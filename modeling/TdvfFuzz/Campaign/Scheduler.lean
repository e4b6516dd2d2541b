import Mathlib.Data.Finset.Range
import Mathlib.Data.Finset.Card
import Mathlib.Order.Interval.Set.Basic
import TdvfFuzz.Foundation.Transition

/-!
# The fuzzing loop of a campaign

`run_campaign` hands CPU pipes to fuzz jobs that a FIFO thread pool executes.
The scheduler's program counter names the guard, the waiting loop and the scan
over `fuzz_tasks`, so jobs may start and finish between any two of its reads.
-/

namespace TdvfFuzz.Campaign

open TdvfFuzz.Foundation

structure Entry where
  harnessDir : String
  targetDir : String
  workDir : String
  deriving DecidableEq, Repr

inductive TaskStatus where
  | queued
  | running
  | done
  deriving DecidableEq, Repr

structure Task where
  entry : Entry
  pipeId : Nat
  status : TaskStatus
  deriving DecidableEq, Repr

/-- Both exits of `task_fuzz` return the pipe id. -/
def Task.result (t : Task) : Nat := t.pipeId

/-- `--cpu-offset workers*pipe_id -p workers` of the launched fuzzer. -/
def cpuWindow (workers pipeId : Nat) : Set Nat :=
  Set.Ico (workers * pipeId) (workers * pipeId + workers)

inductive Pc where
  | guard
  | wait
  | scan (index : Nat)
  | drain
  | finished
  deriving DecidableEq, Repr

structure State where
  fuzzQueue : List Entry
  pipes : Finset Nat
  fuzzTasks : List Task
  pc : Pc
  deriving DecidableEq

inductive Action where
  | submit (pipeId : Nat)
  | leave
  | sleep
  | resume
  | poll
  | rescan
  | drained
  | start
  | finish (index : Nat)
  deriving DecidableEq, Repr

def setStatus (tasks : List Task) (index : Nat) (status : TaskStatus) :
    List Task :=
  tasks.modify index fun t => { t with status }

def runningCount (tasks : List Task) : Nat :=
  tasks.countP fun t => t.status = .running

/-- `while fuzz_queue and pipes:`, with either end of the loop body. -/
def submitStep (s : State) (pipeId : Nat) : Option State :=
  match s.fuzzQueue.getLast? with
  | none => none
  | some p =>
      if pipeId ∈ s.pipes then
        some { s with
          fuzzQueue := s.fuzzQueue.dropLast
          pipes := s.pipes.erase pipeId
          fuzzTasks := s.fuzzTasks ++ [⟨p, pipeId, .queued⟩]
          pc := .wait }
      else none

/-- One iteration of `for t in fuzz_tasks`. -/
def pollStep (s : State) (index : Nat) : Option State :=
  match s.fuzzTasks[index]? with
  | none => none
  | some t =>
      if t.status = .done then
        some { s with pipes := insert t.result s.pipes, pc := .scan (index + 1) }
      else some { s with pc := .scan (index + 1) }

/-- The oldest waiting job goes to a free thread of the pool. -/
def startStep (threads : Nat) (s : State) : Option State :=
  match s.fuzzTasks.findIdx? fun t => t.status = .queued with
  | none => none
  | some index =>
      if runningCount s.fuzzTasks < threads then
        some { s with fuzzTasks := setStatus s.fuzzTasks index .running }
      else none

def finishStep (s : State) (index : Nat) : Option State :=
  match s.fuzzTasks[index]? with
  | none => none
  | some t =>
      if t.status = .running then
        some { s with fuzzTasks := setStatus s.fuzzTasks index .done }
      else none

def step (threads : Nat) (s : State) : Action → Option State
  | .submit pipeId => if s.pc = .guard then submitStep s pipeId else none
  | .leave =>
      if s.pc = .guard ∧ (s.fuzzQueue = [] ∨ s.pipes = ∅) then
        some { s with pc := .drain }
      else none
  | .sleep =>
      if s.pc = .wait ∧ s.pipes = ∅ then some { s with pc := .scan 0 }
      else none
  | .resume =>
      if s.pc = .wait ∧ s.pipes ≠ ∅ then some { s with pc := .guard }
      else none
  | .poll =>
      match s.pc with
      | .scan index => pollStep s index
      | _ => none
  | .rescan =>
      if s.pc = .scan s.fuzzTasks.length then some { s with pc := .wait }
      else none
  | .drained =>
      if s.pc = .drain ∧ ∀ t ∈ s.fuzzTasks, t.status = .done then
        some { s with pc := .finished }
      else none
  | .start => startStep threads s
  | .finish index => finishStep s index

/--
The loop as entered: every pipe is free and no job has been submitted.  `main`
loads the pool with `max_threads=args.pipes`.
-/
def runCampaign (pipes : Nat) (pipeline : List Entry) : Machine State Action where
  init := ⟨pipeline, Finset.range pipes, [], .guard⟩
  step := step pipes

/-! ## What the scheduler and the pool can do -/

inductive Move (s : State) : Action → State → Prop
  | submitted (p : Entry) (pipeId : ℕ) (guard : s.pc = .guard)
      (last : s.fuzzQueue.getLast? = some p) (free : pipeId ∈ s.pipes) :
      Move s (.submit pipeId) ⟨s.fuzzQueue.dropLast, s.pipes.erase pipeId,
        s.fuzzTasks ++ [⟨p, pipeId, .queued⟩], .wait⟩
  | left (guard : s.pc = .guard) (ended : s.fuzzQueue = [] ∨ s.pipes = ∅) :
      Move s .leave { s with pc := .drain }
  | slept (waiting : s.pc = .wait) (none : s.pipes = ∅) : Move s .sleep { s with pc := .scan 0 }
  | resumed (waiting : s.pc = .wait) (some : s.pipes ≠ ∅) : Move s .resume { s with pc := .guard }
  | returned (index : ℕ) (t : Task) (scanning : s.pc = .scan index)
      (visited : s.fuzzTasks[index]? = some t) (done : t.status = .done) :
      Move s .poll { s with pipes := insert t.pipeId s.pipes, pc := .scan (index + 1) }
  | passed (index : ℕ) (t : Task) (scanning : s.pc = .scan index)
      (visited : s.fuzzTasks[index]? = some t) (undone : t.status ≠ .done) :
      Move s .poll { s with pc := .scan (index + 1) }
  | rescanned (scanned : s.pc = .scan s.fuzzTasks.length) : Move s .rescan { s with pc := .wait }
  | drained (draining : s.pc = .drain) : Move s .drained { s with pc := .finished }
  | started (index : ℕ) (t : Task) (picked : s.fuzzTasks[index]? = some t)
      (queued : t.status = .queued) :
      Move s .start { s with fuzzTasks := setStatus s.fuzzTasks index .running }
  | finished (index : ℕ) (t : Task) (picked : s.fuzzTasks[index]? = some t)
      (running : t.status = .running) :
      Move s (.finish index) { s with fuzzTasks := setStatus s.fuzzTasks index .done }

theorem pollStep_move {s s' : State} {index : ℕ} (scanning : s.pc = .scan index)
    (h : pollStep s index = some s') : Move s .poll s' := by
  unfold pollStep at h
  split at h
  case h_1 => contradiction
  case h_2 t visited =>
    split at h
    case isTrue done => exact Option.some.inj h ▸ .returned index t scanning visited done
    case isFalse undone => exact Option.some.inj h ▸ .passed index t scanning visited undone

theorem startStep_move {threads : ℕ} {s s' : State} (h : startStep threads s = some s') :
    Move s .start s' := by
  unfold startStep at h
  split at h
  case h_1 => contradiction
  case h_2 index hfirst =>
    obtain ⟨hindex, hqueued, -⟩ := List.findIdx?_eq_some_iff_getElem.mp hfirst
    split at h
    case isTrue =>
      exact Option.some.inj h ▸ .started index _ (List.getElem?_eq_getElem hindex)
        (by simpa using hqueued)
    case isFalse => contradiction

theorem step_move {threads : ℕ} {s s' : State} {a : Action} (h : step threads s a = some s') :
    Move s a s' := by
  cases a with
  | submit pipeId =>
      simp only [step, submitStep] at h
      split at h
      case isFalse => contradiction
      case isTrue guard =>
        split at h
        case h_1 => contradiction
        case h_2 p last =>
          split at h
          case isTrue free => exact Option.some.inj h ▸ .submitted p pipeId guard last free
          case isFalse => contradiction
  | poll =>
      simp only [step] at h
      split at h
      case h_1 index scanning => exact pollStep_move scanning h
      case h_2 => contradiction
  | start => exact startStep_move h
  | finish index =>
      simp only [step, finishStep] at h
      split at h
      case h_1 => contradiction
      case h_2 t picked =>
        split at h
        case isTrue running => exact Option.some.inj h ▸ .finished index t picked running
        case isFalse => contradiction
  | leave =>
      simp only [step, Option.ite_none_right_eq_some, Option.some.injEq] at h
      exact h.2 ▸ .left h.1.1 h.1.2
  | sleep =>
      simp only [step, Option.ite_none_right_eq_some, Option.some.injEq] at h
      exact h.2 ▸ .slept h.1.1 h.1.2
  | resume =>
      simp only [step, Option.ite_none_right_eq_some, Option.some.injEq] at h
      exact h.2 ▸ .resumed h.1.1 h.1.2
  | rescan =>
      simp only [step, Option.ite_none_right_eq_some, Option.some.injEq] at h
      exact h.2 ▸ .rescanned h.1
  | drained =>
      simp only [step, Option.ite_none_right_eq_some, Option.some.injEq] at h
      exact h.2 ▸ .drained h.1.1

end TdvfFuzz.Campaign
