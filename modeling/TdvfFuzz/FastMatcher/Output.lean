import TdvfFuzz.FastMatcher.Hits
import TdvfFuzz.FastMatcher.Merging

/-!
# The printed hits

What is printed after the `join` loop depends on the files only, not on the
number of workers or the order of their steps.
-/

namespace TdvfFuzz.FastMatcher

open TdvfFuzz.Foundation

section

variable {S : Type} (R : RangeInclusiveSet S) (ctx : Context) (smatchData : SmatchData)
  (options : Options)

def hitsOf (s : State S) : Finset LineInfo :=
  collectHits ctx smatchData options (R.iter s.rangesDb)

def output (s : State S) : Text := printHits (hitsOf R ctx smatchData options s)

variable {R ctx smatchData options}

theorem panicCount_eq_zero {files : List TraceFile} (h : ∀ file ∈ files, ¬ Panics file) :
    panicCount files = 0 := by
  simpa [panicCount, List.countP_eq_zero] using h

theorem hitsOf_eq_of_addresses {s s' : State S}
    (h : R.addresses s.rangesDb = R.addresses s'.rangesDb) :
    hitsOf R ctx smatchData options s = hitsOf R ctx smatchData options s' := by
  rw [hitsOf, hitsOf, R.iter_eq_of_addresses h]

end

/-- All threads can end, and they end with the same addresses and the same output. -/
theorem output_unique {S : Type} (R : RangeInclusiveSet S) (ctx : Context)
    (smatchData : SmatchData) (options : Options) (files : List TraceFile)
    (hfiles : ∀ file ∈ files, ¬ Panics file) :
    ∃ printed, ∀ nproc, 0 < nproc →
      (∀ s, (workersOf R ctx smatchData files nproc).Reachable s → Done s →
        R.addresses s.rangesDb = addressesOf ctx smatchData files ∧
        output R ctx smatchData options s = printed) ∧
      ∃ s, (workersOf R ctx smatchData files nproc).Reachable s ∧ Done s := by
  have haddresses : ∀ nproc, 0 < nproc → ∀ s,
      (workersOf R ctx smatchData files nproc).Reachable s → Done s →
      R.addresses s.rangesDb = addressesOf ctx smatchData files := fun nproc hproc s h hdone =>
    addresses_of_few_panics h hdone (panicCount_eq_zero hfiles ▸ hproc)
  have hdone : ∀ nproc, ∃ s,
      (workersOf R ctx smatchData files nproc).Reachable s ∧ Done s := fun nproc => by
    obtain ⟨s, h, hdone⟩ := exists_done R ctx smatchData
      (.init : (workersOf R ctx smatchData files nproc).ReachableBy Fifo _)
    exact ⟨s, h.reachable, hdone⟩
  obtain ⟨single, hsingle, hsingle_done⟩ := hdone 1
  refine ⟨output R ctx smatchData options single, fun nproc hproc =>
    ⟨fun s h hend => ⟨haddresses nproc hproc s h hend, ?_⟩, hdone nproc⟩⟩
  rw [output, output, hitsOf_eq_of_addresses]
  rw [haddresses nproc hproc s h hend, haddresses 1 one_pos single hsingle hsingle_done]

def twoFiles : List TraceFile :=
  [some [some "10,20".toList, some "30,40".toList], some [some "40,50".toList, some "60,70".toList]]

theorem twoFiles_readable : ∀ file ∈ twoFiles, ¬ Panics file := by
  decide +kernel

def twoFunctions : Context where
  findFrames addr := [⟨some [if addr < 0x48 then 'f' else 'g'], some ⟨"a.c".toList, 1⟩⟩]
  rows := [⟨0x28, 0x2c, ⟨"a.c".toList, 5⟩, by decide⟩, ⟨0x3c, 0x44, ⟨"a.c".toList, 6⟩, by decide⟩,
    ⟨0x54, 0x58, ⟨"a.c".toList, 7⟩, by decide⟩]
  findLocationRange := probeRows _
  located := by simp
  mem_findLocationRange := mem_probeRows _

def firstFunction : SmatchData := [(.ofLocation ⟨"a.c".toList, 1⟩, ['f'])]

def mergeTwoFiles : List Action :=
  [.pull 0 0, .read 0, .lock 0, .insert 0, .insert 0, .insert 0, .unlock 0,
    .pull 0 0, .read 0, .lock 0, .insert 0, .insert 0, .insert 0, .insert 0, .unlock 0, .stop 0]

theorem mergeTwoFiles_enabled : ((workersOf .lists twoFunctions firstFunction twoFiles 1).run
    (workersOf .lists twoFunctions firstFunction twoFiles 1).init mergeTwoFiles).isSome := by
  decide +kernel

def mergedTwoFiles : State {l : List Interval // Separated l} :=
  Option.get _ mergeTwoFiles_enabled

/-- The second block is not in a function of the report, and its row is not reached. -/
theorem output_unique_twoFiles :
    (∃ s, (workersOf .lists twoFunctions firstFunction twoFiles 2).Reachable s ∧ Done s) ∧
      ∀ nproc, 0 < nproc → ∀ s,
        (workersOf .lists twoFunctions firstFunction twoFiles nproc).Reachable s → Done s →
          output .lists twoFunctions firstFunction ⟨[], false, true⟩ s =
            printHits {.ofLocation ⟨"a.c".toList, 5⟩, .ofLocation ⟨"a.c".toList, 6⟩} := by
  obtain ⟨printed, hprinted⟩ := output_unique .lists twoFunctions firstFunction ⟨[], false, true⟩
    twoFiles twoFiles_readable
  have hmerged := ((hprinted 1 one_pos).1 mergedTwoFiles
    (Machine.Reachable.run (.init _) mergeTwoFiles (by simp [mergedTwoFiles]))
    (by decide +kernel)).2
  refine ⟨(hprinted 2 two_pos).2, fun nproc hproc s h hdone => ?_⟩
  rw [((hprinted nproc hproc).1 s h hdone).2, ← hmerged]
  exact congrArg printHits (by decide +kernel)

end TdvfFuzz.FastMatcher
