import Mathlib.Data.NNRat.Floor
import TdvfFuzz.Foundation.Dict
import TdvfFuzz.Foundation.Python

/-!
# The summary of a working directory

`process_workdir` reads what the fuzzer left in a directory, and
`stats_aggregate` counts the nodes by their states and the findings by the
groups of mutation methods.
-/

namespace TdvfFuzz.KaflStats

open TdvfFuzz.Foundation

inductive Error where
  | keyError (key : Text)
  | valueError
  | zeroDivisionError
  deriving DecidableEq, Repr

/-- What is read of one worker's file. -/
structure Worker where
  runTime : ℚ≥0
  deriving DecidableEq

/-- What is read of one node's file; the time is in seconds since the epoch. -/
structure Node where
  exitReason : Text
  time : ℚ≥0
  stateName : Text
  favBits : List ℕ
  deriving DecidableEq

/-- What is read of the file `stats`. -/
structure Record where
  numWorkers : ℕ
  findings : Dict Text ℕ
  yield : Dict Text ℕ
  totalExecs : ℕ
  deriving DecidableEq

structure Stats extends Record where
  runtime : ℚ≥0
  workers : Dict ℕ Worker
  nodes : Dict ℕ Node
  execs : ℕ
  pathsTotal : ℕ
  deriving DecidableEq

/-! ## Aggregation -/

structure Aggregate where
  favStates : Dict Text ℤ
  normStates : Dict Text ℤ
  lastFound : Dict Text ℚ≥0
  yield : Dict Text ℕ
  deriving DecidableEq

def regular : Text := "regular".toList

def exitReasons : List Text := [regular, "crash".toList, "kasan".toList, "timeout".toList]

def initialAggregate : Aggregate :=
  ⟨.empty, .empty, .collect (exitReasons.map fun reason => (reason, 0)), .empty⟩

/-- The groups under which mutation methods are displayed. -/
def methods : Dict Text Text := .collect [
  ("import".toList, "seed/import".toList),
  ("kickstart".toList, "kickstart".toList),
  ("calibrate".toList, "calibrate".toList),
  ("trim".toList, "trim".toList),
  ("trim_center".toList, "trim_center".toList),
  ("stream_color".toList, "stream_color".toList),
  ("stream_zero".toList, "stream_zero".toList),
  ("redq_color".toList, "redq_color".toList),
  ("redq_mutate".toList, "redq_mutate".toList),
  ("redq_dict".toList, "redq_dict".toList),
  ("grim_infer".toList, "grim_infer".toList),
  ("grim_havoc".toList, "grim_havoc".toList),
  ("afl_arith_1".toList, "afl_arith".toList),
  ("afl_arith_2".toList, "afl_arith".toList),
  ("afl_arith_4".toList, "afl_arith".toList),
  ("afl_flip_1/1".toList, "afl_flip".toList),
  ("afl_flip_2/1".toList, "afl_flip".toList),
  ("afl_flip_8/1".toList, "afl_flip".toList),
  ("afl_flip_8/2".toList, "afl_flip".toList),
  ("afl_flip_8/4".toList, "afl_flip".toList),
  ("afl_int_1".toList, "afl_int".toList),
  ("afl_int_2".toList, "afl_int".toList),
  ("afl_int_4".toList, "afl_int".toList),
  ("afl_havoc".toList, "afl_havoc".toList),
  ("afl_splice".toList, "afl_splice".toList),
  ("radamsa".toList, "radamsa".toList),
  ("trim_funky".toList, "funky".toList),
  ("stream_funky".toList, "funky".toList),
  ("validate_bits".toList, "funky".toList),
  ("fixme".toList, "funky".toList),
  ("redq_trace".toList, "funky".toList)]

/-- `states[state] = states.get(state, 0) + 1` -/
def countState (states : Dict Text ℤ) (state : Text) : Dict Text ℤ :=
  states.set state (states.getD state 0 + 1)

def visitNode (ret : Aggregate) (node : Node) : Except Error Aggregate :=
  match ret.lastFound.get? node.exitReason with
  | none => .error (.keyError node.exitReason)
  | some lastFound =>
      let ret := { ret with
        lastFound := ret.lastFound.set node.exitReason (max lastFound node.time) }
      if node.exitReason = regular then
        if 0 < node.favBits.length then
          .ok { ret with favStates := countState ret.favStates node.stateName }
        else .ok { ret with normStates := countState ret.normStates node.stateName }
      else .ok ret

def visitYield (ret : Aggregate) (entry : Text × ℕ) : Except Error Aggregate :=
  match methods.get? entry.1 with
  | none => .error (.keyError entry.1)
  | some group => .ok { ret with yield := ret.yield.set group entry.2 }

def statsAggregate (stats : Stats) : Except Error Aggregate := do
  let ret ← stats.nodes.values.foldlM visitNode initialAggregate
  stats.yield.entries.foldlM visitYield ret

/-! ## Reading a working directory -/

structure Workdir where
  stats : Record
  workerStats : Text → Option Worker
  metadata : Text → Option Node

/-- `worker_stats_{num}` -/
def workerStatsName (num : ℕ) : Text := "worker_stats_".toList ++ Nat.toDigits 10 num

/-- `node_{:05d}` -/
def nodeName (nid : ℕ) : Text := "node_".toList ++ (Nat.toDigits 10 nid).leftpad 5 '0'

/-- The numbers below `count` for which there is a file, with its contents. -/
def loadRange {α : Type} (count : ℕ) (file : ℕ → Option α) : Dict ℕ α :=
  (List.range count).foldl
    (fun loaded num =>
      match file num with
      | none => loaded
      | some contents => loaded.set num contents)
    .empty

/-- `execs` is the floor of the exact quotient, which the script truncates as a float. -/
def processWorkdir (workdir : Workdir) : Except Error Stats :=
  let workers := loadRange workdir.stats.numWorkers (workdir.workerStats ∘ workerStatsName)
  let numNodes := workdir.stats.findings.values.sum
  let nodes := loadRange numNodes (workdir.metadata ∘ nodeName)
  match (workers.values.map Worker.runTime).max? with
  | none => .error .valueError
  | some runtime =>
      if runtime = 0 then .error .zeroDivisionError
      else .ok { workdir.stats with
        runtime
        workers
        nodes
        execs := ⌊(workdir.stats.totalExecs : ℚ≥0) / runtime⌋₊
        pathsTotal := numNodes }

end TdvfFuzz.KaflStats
