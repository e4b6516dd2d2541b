import Mathlib.Data.Finset.Lattice.Basic
import Mathlib.Data.Finset.Option
import TdvfFuzz.Campaign.Scheduler
import TdvfFuzz.Foundation.Pool

/-!
# The stages of a campaign

`run_campaign` builds every harness, fuzzes in CPU pipes, traces and matches
what was found and summarizes the result.  All of its tasks share one pool;
the program counter names every point at which the pool may run ahead of it.
-/

namespace TdvfFuzz.Campaign.Pipeline

open TdvfFuzz.Foundation

structure Args where
  pipes : ℕ
  rebuild : Bool
  deriving DecidableEq, Repr

/-- An element of `pipeline`. -/
structure Item extends Entry where
  harnessName : String
  buildDir : String
  deriving DecidableEq, Repr

inductive App where
  | build (p : Item)
  | fuzz (p : Item) (pipeId : ℕ)
  | trace (p : Item)
  | smatch (p : Item)
  | triage
  | smatcher
  deriving DecidableEq, Repr

/-- `t.result()` of a task that returned; only `task_fuzz` has a value. -/
def App.result : App → Option ℕ
  | .fuzz _ pipeId => some pipeId
  | _ => none

/-! ## The files of a build -/

/-- The names of `target_files`. -/
def targetFiles : List String :=
  [".config", "vmlinux", "System.map", "bzImage", "smatch_warns.txt", "smatch_warns_annotated.txt"]

def allExist (targets : Finset (String × String)) (dir : String) (files : List String) : Bool :=
  files.all fun f => (dir, f) ∈ targets

/-- The loop `for f in target_files` up to where it ends or raises. -/
def copyTargets (dir : String) (files : List String) : Finset (String × String) :=
  (files.flatMap fun f => [(dir, f), (dir, "task_build.log")]).toFinset

def taskBuild (rebuild : Bool) (targets : Finset (String × String)) (p : Item)
    (files : List String) : Finset (String × String) :=
  if !rebuild && allExist targets p.targetDir targetFiles then targets
  else targets ∪ copyTargets p.targetDir files

/-! ## The state -/

/-- The lists of futures that `run_campaign` waits for. -/
inductive Phase where
  | build
  | fuzz
  | trace
  | smatcher
  deriving DecidableEq, Repr

inductive Stage where
  | build (next : ℕ)
  | results (phase : Phase) (next : ℕ)
  | pipes
  | guard
  | wait
  | scan (index : ℕ)
  | trace (next : ℕ)
  | smatch (next waitTask : ℕ)
  | triage
  | smatcher
  | finished
  deriving DecidableEq, Repr

/-- `raised` holds once a `result()` has raised; the main thread then stands still. -/
structure State where
  pool : Pool App
  buildTasks : List ℕ
  fuzzTasks : List ℕ
  traceTasks : List ℕ
  smatcherTasks : List ℕ
  fuzzQueue : List Item
  pipes : Finset ℕ
  targets : Finset (String × String)
  stage : Stage
  raised : Bool
  deriving DecidableEq

def State.tasks (s : State) : Phase → List ℕ
  | .build => s.buildTasks
  | .fuzz => s.fuzzTasks
  | .trace => s.traceTasks
  | .smatcher => s.smatcherTasks

inductive Action where
  | main
  | submit (pipeId : ℕ)
  | pool (a : PoolAction) (copied : ℕ)
  deriving DecidableEq, Repr

def Phase.following : Phase → Stage
  | .build => .pipes
  | .fuzz => .trace 0
  | .trace => .smatcher
  | .smatcher => .finished

/-! ## The main thread -/

section

variable (holds : Bool) (args : Args) (pipeline : List Item)

/-- `[t.result() for t in tasks]`, at its element `next`. -/
def resultStep (s : State) (phase : Phase) (next : ℕ) : Option State :=
  match (s.tasks phase)[next]? with
  | none => some { s with stage := phase.following }
  | some task =>
      match s.pool.status task with
      | some .done => some { s with stage := .results phase (next + 1) }
      | some .failed => some { s with raised := true }
      | _ => none

def buildStep (s : State) (next : ℕ) : State :=
  match pipeline[next]? with
  | none => { s with stage := .results .build 0 }
  | some p =>
      { s with
        pool := s.pool.submit holds (.build p) none
        buildTasks := s.buildTasks ++ [s.pool.jobs.length]
        stage := .build (next + 1) }

/-- One iteration of `for t in fuzz_tasks`; a failed task is done, and raises. -/
def scanStep (s : State) (index : ℕ) : State :=
  match s.fuzzTasks[index]? with
  | none => { s with stage := .wait }
  | some task =>
      match s.pool.status task with
      | some .done =>
          { s with
            pipes := s.pipes ∪ (s.pool.jobs[task]?.bind fun j => j.app.result).toFinset
            stage := .scan (index + 1) }
      | some .failed => { s with raised := true }
      | _ => { s with stage := .scan (index + 1) }

def traceStep (s : State) (next : ℕ) : State :=
  match pipeline[next]? with
  | none => { s with stage := .triage }
  | some p =>
      { s with
        pool := s.pool.submit holds (.trace p) none
        traceTasks := s.traceTasks ++ [s.pool.jobs.length]
        stage := .smatch next s.pool.jobs.length }

def smatchStep (s : State) (next waitTask : ℕ) : Option State :=
  match pipeline[next]? with
  | none => none
  | some p =>
      some { s with
        pool := s.pool.submit holds (.smatch p) (some waitTask)
        traceTasks := s.traceTasks ++ [s.pool.jobs.length]
        stage := .trace (next + 1) }

def mainStep (s : State) : Option State :=
  match s.stage with
  | .build next => some (buildStep holds pipeline s next)
  | .results phase next => resultStep s phase next
  | .pipes =>
      some { s with
        pipes := Finset.range args.pipes, fuzzQueue := pipeline, stage := .guard }
  | .guard =>
      if s.fuzzQueue = [] ∨ s.pipes = ∅ then some { s with stage := .results .fuzz 0 } else none
  | .wait => some { s with stage := if s.pipes = ∅ then .scan 0 else .guard }
  | .scan index => some (scanStep s index)
  | .trace next => some (traceStep holds pipeline s next)
  | .smatch next waitTask => smatchStep holds pipeline s next waitTask
  | .triage =>
      some { s with
        pool := s.pool.submit holds .triage none
        traceTasks := s.traceTasks ++ [s.pool.jobs.length]
        stage := .results .trace 0 }
  | .smatcher =>
      some { s with
        pool := s.pool.submit holds .smatcher none
        smatcherTasks := s.smatcherTasks ++ [s.pool.jobs.length]
        stage := .results .smatcher 0 }
  | .finished => none

/-- `p = fuzz_queue.pop()` with the id that `pipes.pop()` happens to return. -/
def submitStep (s : State) (pipeId : ℕ) : Option State :=
  match s.fuzzQueue.getLast? with
  | none => none
  | some p =>
      if pipeId ∈ s.pipes then
        some { s with
          pool := s.pool.submit holds (.fuzz p pipeId) none
          fuzzTasks := s.fuzzTasks ++ [s.pool.jobs.length]
          fuzzQueue := s.fuzzQueue.dropLast
          pipes := s.pipes.erase pipeId
          stage := .wait }
      else none

/-- The files that the body of a job leaves behind when it ends. -/
def written (s : State) : PoolAction → ℕ → Finset (String × String)
  | .finish index returned, copied =>
      match s.pool.jobs[index]?.map Job.app with
      | some (.build p) =>
          taskBuild args.rebuild s.targets p
            (if returned then targetFiles else targetFiles.take copied)
      | _ => s.targets
  | _, _ => s.targets

def step (s : State) : Action → Option State
  | .main => if s.raised then none else mainStep holds args pipeline s
  | .submit pipeId =>
      if s.raised = false ∧ s.stage = .guard then submitStep holds s pipeId else none
  | .pool a copied =>
      match s.pool.step args.pipes a with
      | none => none
      | some pool => some { s with pool, targets := written args s a copied }

/--
`main` loads the pool with `max_threads=args.pipes`.  The `AppFuture` given to
`task_smatch` is either awaited before the task is launched (`holds`) or by its
body.
-/
def runCampaign (targets : Finset (String × String)) : Machine State Action where
  init := ⟨Pool.empty, [], [], [], [], [], ∅, targets, .build 0, false⟩
  step := step holds args pipeline

end

end TdvfFuzz.Campaign.Pipeline
