import TdvfFuzz.Foundation.Dict
import TdvfFuzz.Foundation.Lines
import TdvfFuzz.Foundation.Python

/-!
# `agent_config.py`

The script switches one harness flag in a header of the agent.  The flags are
defined, or commented out, between two boundary lines.
-/

namespace TdvfFuzz.AgentConfig

open TdvfFuzz.Foundation

inductive Flag where
  | fuzzBootLoader
  | fuzzVirtioRead
  | fuzzBlkDevInit
  | fuzzTdhob
  | fuzzDummy
  deriving DecidableEq, Repr

namespace Flag

/-- `for flag in Flag` -/
def all : List Flag := [fuzzBootLoader, fuzzVirtioRead, fuzzBlkDevInit, fuzzTdhob, fuzzDummy]

def name : Flag → Text
  | fuzzBootLoader => "FUZZ_BOOT_LOADER".toList
  | fuzzVirtioRead => "FUZZ_VIRTIO_READ".toList
  | fuzzBlkDevInit => "FUZZ_BLK_DEV_INIT".toList
  | fuzzTdhob => "FUZZ_TDHOB".toList
  | fuzzDummy => "FUZZ_DUMMY".toList

def value : Flag → Text
  | fuzzBootLoader => "CONFIG_KAFL_FUZZ_BOOT_LOADER".toList
  | fuzzVirtioRead => "CONFIG_KAFL_FUZZ_VIRTIO_READ".toList
  | fuzzBlkDevInit => "CONFIG_KAFL_FUZZ_BLK_DEV_INIT".toList
  | fuzzTdhob => "CONFIG_KAFL_FUZZ_TDHOB".toList
  | fuzzDummy => "CONFIG_KAFL_FUZZ_DUMMY".toList

end Flag

abbrev Config := Dict Flag Bool

def configBoundaryStart : Text := "/** KAFL HARNESS CONFIGURATION START **/".toList

def configBoundaryEnd : Text := "/** KAFL HARNESS CONFIGURATION END **/".toList

/-- `g_eol` -/
def eol : Text := ['\r', '\n']

/-! ## Reading -/

/--
The lines with their ends.  The line end of the first one is assigned to a
local name `g_eol` and has no effect, but the first line has to exist.
-/
def loadAgentlib (content : Text) : Except PyError (List Text) := do
  let lines := readlines content
  let _ ← item lines 0
  return lines

/-- The parts before, between and behind the boundary lines. -/
def splitLibParts (libContent : List Text) :
    Except PyError (List Text × List Text × List Text) := do
  let start ← indexOf libContent (configBoundaryStart ++ eol)
  let configStart := start + 1
  let configEnd ← indexOf libContent (configBoundaryEnd ++ eol)
  return (libContent.take configStart, (libContent.take configEnd).drop configStart,
    libContent.drop configEnd)

def commentedOut (line : Text) : Bool := line.take 4 = "// #".toList

/-- The inner loop, over the flags that one line may name. -/
def readLine (config : Config) (line : Text) : Config :=
  Flag.all.foldl (fun config flag =>
    if flag.value <:+: line then config.set flag (!commentedOut line) else config) config

def getCurrentConfig (configLines : List Text) : Config := configLines.foldl readLine .empty

/-! ## Changing and writing -/

def enableFlag (flag : Flag) (config : Config) : Config := config.set flag true

def disableFlag (flag : Flag) (config : Config) : Config := config.set flag false

def configLine (flag : Flag) (isActive : Bool) : Text :=
  (if isActive then [] else "// ".toList) ++ "#define ".toList ++ flag.value ++ eol

def createConfigLines (config : Config) : List Text :=
  config.entries.map fun (flag, isActive) => configLine flag isActive

def printConfig (config : Config) : Text :=
  config.entries.flatMap fun (flag, isActive) =>
    flag.name ++ ": ".toList ++ (if isActive then "enabled" else "disabled").toList ++ ['\n']

inductive Action where
  | enable (flag : Flag)
  | disable (flag : Flag)
  | print
  deriving DecidableEq, Repr

/-- The header afterwards and what is printed. -/
def main (action : Action) (agentlib : Text) : Except PyError (Text × Text) := do
  let currentAgentlib ← loadAgentlib agentlib
  let (libHead, crntLibConfig, libTail) ← splitLibParts currentAgentlib
  let crntConfig := getCurrentConfig crntLibConfig
  let write := fun newConfig => (libHead ++ createConfigLines newConfig ++ libTail).flatten
  return match action with
  | .print => (agentlib, printConfig crntConfig)
  | .enable flag => (write (enableFlag flag crntConfig), [])
  | .disable flag => (write (disableFlag flag crntConfig), [])

end TdvfFuzz.AgentConfig
