import Mathlib.Data.Finset.Basic
import Mathlib.Data.List.Perm.Basic
import TdvfFuzz.Foundation.Text
import TdvfFuzz.Foundation.Transition

/-!
# `minimize_stimulus.sh`

The script unpacks the archives of a dump folder and runs the coverage match
for those with a new stack.  The directories that it creates are all that the
next run knows about what was processed.
-/

namespace TdvfFuzz.Stimulus

open TdvfFuzz.Foundation

/-! ## Stacks of a trace -/

/-- The commands that the script applies to traces. -/
structure Tools where
  /-- `csplit .. '/tdx_fuzz: rip/' '{*}'` -/
  csplit : Text → List Text
  grepQuiet : Text → Text → Bool
  grep : Text → Text → Text
  /-- `grep -A $SHORT_STACKLEVELS` -/
  grepAfter : Text → Text → Text
  /-- `sha1sum|cut -b -40` -/
  sha1 : Text → Text

structure Archive where
  name : Text
  readable : Bool
  trace : Option Text
  /-- `$tracedir/$LINUX_BUILD_ROOT` is a directory once the archive is unpacked. -/
  gcdaRoot : Bool
  /-- `./$GCOV_DIR` is one. -/
  gcovDir : Bool
  deriving DecidableEq, Repr

namespace Tools

def pieces (tools : Tools) (archive : Archive) : List Text :=
  match archive.trace with
  | none => []
  | some trace => tools.csplit trace

def hasStack (tools : Tools) (stack : Text) : Bool := tools.grepQuiet "^ => ".toList stack

def fullSha1 (tools : Tools) (stack : Text) : Text := tools.sha1 (tools.grep "^ => ".toList stack)

def shortSha1 (tools : Tools) (stack : Text) : Text :=
  if tools.grepQuiet "asm_exc_virtualization_exception".toList stack then
    tools.sha1 (tools.grepAfter "asm_exc_virt".toList stack)
  else tools.sha1 (tools.grepAfter "tdg_fuzz$".toList stack)

/-- `test -z "$sha1" && fatal`, and the same for the short one. -/
def badSha (tools : Tools) (stack : Text) : Bool :=
  tools.fullSha1 stack = [] ∨ tools.shortSha1 stack = []

end Tools

/-! ## The script -/

/-- Where the script stands; `idle` after a run that stopped early. -/
inductive Pc where
  | idle
  | ended
  | visit (todo : List Archive)
  | scan (current : Archive) (pending : List Text) (haveNewStacks : Bool) (todo : List Archive)
  | cleanup (current : Archive) (todo : List Archive)
  deriving DecidableEq, Repr

/-- The dump folder, and the archives for which the match was run. -/
structure State where
  archives : List Archive
  dirs : Finset Text
  fullSeen : Finset Text
  shortSeen : Finset Text
  executed : List Archive
  pc : Pc

inductive Action where
  | upload (archive : Archive)
  | startFails
  | start (order : List Archive)
  | mkdirFails
  | proceed
  deriving DecidableEq, Repr

/-- `$FULL_SEEN` and `$SHORT_SEEN`, which stand beside the directories of the archives. -/
def seenDirs : Finset Text := {"full_stacks".toList, "short_stacks".toList}

def between (s : State) : Bool := s.pc = .idle ∨ s.pc = .ended

/-- Up to the loop; without an archive the pattern itself is not readable. -/
def startStep (s : State) (order : List Archive) : State :=
  { s with
    dirs := s.dirs ∪ seenDirs
    pc := if order = [] then .idle else .visit order }

def visitStep (tools : Tools) (s : State) (archive : Archive) (todo : List Archive) : State :=
  if archive.readable = false then { s with pc := .idle }
  else if archive.name ∈ s.dirs then { s with pc := .visit todo }
  else
    { s with
      dirs := insert archive.name s.dirs
      pc := .scan archive (tools.pieces archive) false todo }

def scanStep (tools : Tools) (s : State) (current : Archive) (stack : Text)
    (pending : List Text) (haveNewStacks : Bool) (todo : List Archive) : State :=
  if tools.hasStack stack = false then { s with pc := .scan current pending haveNewStacks todo }
  else if tools.badSha stack then { s with pc := .idle }
  else
    { s with
      fullSeen := insert (tools.fullSha1 stack) s.fullSeen
      shortSeen := insert (tools.shortSha1 stack) s.shortSeen
      pc := .scan current pending
        (haveNewStacks || decide (tools.shortSha1 stack ∉ s.shortSeen)) todo }

/-- `gcovr` and the match against the report, unless no stack is new. -/
def matchStep (s : State) (current : Archive) (haveNewStacks : Bool) (todo : List Archive) :
    State :=
  if haveNewStacks = false then { s with pc := .cleanup current todo }
  else if current.gcdaRoot = false then { s with pc := .idle }
  else { s with executed := current :: s.executed, pc := .cleanup current todo }

def cleanupStep (s : State) (current : Archive) (todo : List Archive) : State :=
  if current.gcovDir = false then { s with pc := .idle } else { s with pc := .visit todo }

def proceedStep (tools : Tools) (s : State) : Option State :=
  match s.pc with
  | .idle | .ended => none
  | .visit [] => some { s with pc := .ended }
  | .visit (archive :: todo) => some (visitStep tools s archive todo)
  | .scan current (stack :: pending) haveNewStacks todo =>
      some (scanStep tools s current stack pending haveNewStacks todo)
  | .scan current [] haveNewStacks todo => some (matchStep s current haveNewStacks todo)
  | .cleanup current todo => some (cleanupStep s current todo)

/-- The order of the archives is that of the shell's pattern, which the locale decides. -/
def step (tools : Tools) (s : State) : Action → Option State
  | .upload archive =>
      if between s then some { s with archives := archive :: s.archives } else none
  | .startFails => if between s then some { s with pc := .idle } else none
  | .start order =>
      if between s ∧ order.Perm s.archives then some (startStep s order) else none
  | .mkdirFails =>
      match s.pc with
      | .visit (archive :: _) =>
          if archive.readable ∧ archive.name ∉ s.dirs then some { s with pc := .idle } else none
      | _ => none
  | .proceed => proceedStep tools s

def minimizer (tools : Tools) : Machine State Action where
  init := ⟨[], ∅, ∅, ∅, [], .idle⟩
  step := step tools

/-! ## What one step can do -/

def HaveNew (pc : Pc) : Prop := ∃ current pending todo, pc = .scan current pending true todo

inductive Effect (tools : Tools) (s : State) : Action → State → Prop
  | uploaded (archive : Archive) :
      Effect tools s (.upload archive) { s with archives := archive :: s.archives }
  | started (order : List Archive) (outside : between s = true)
      (pattern : order.Perm s.archives) : Effect tools s (.start order) (startStep s order)
  | moved (a : Action) (pc : Pc) (old : ¬ HaveNew s.pc)
      (scan : ∀ current pending haveNewStacks todo,
        pc ≠ .scan current pending haveNewStacks todo)
      (visits : ∀ todo, pc = .visit todo → (∃ archive, s.pc = .visit (archive :: todo)) ∨
        ∃ current, s.pc = .cleanup current todo)
      (cleans : ∀ current todo, pc = .cleanup current todo →
        s.pc = .scan current [] false todo) :
      Effect tools s a { s with pc := pc }
  | entered (archive : Archive) (todo : List Archive) (visiting : s.pc = .visit (archive :: todo))
      (readable : archive.readable = true) (fresh : archive.name ∉ s.dirs) :
      Effect tools s .proceed
        { s with
          dirs := insert archive.name s.dirs
          pc := .scan archive (tools.pieces archive) false todo }
  | passed (current : Archive) (stack : Text) (pending : List Text) (haveNewStacks : Bool)
      (todo : List Archive) (scanning : s.pc = .scan current (stack :: pending) haveNewStacks todo)
      (empty : tools.hasStack stack = false) :
      Effect tools s .proceed { s with pc := .scan current pending haveNewStacks todo }
  | recorded (current : Archive) (stack : Text) (pending : List Text) (haveNewStacks : Bool)
      (todo : List Archive) (scanning : s.pc = .scan current (stack :: pending) haveNewStacks todo)
      (found : tools.hasStack stack = true) (good : tools.badSha stack = false) :
      Effect tools s .proceed
        { s with
          fullSeen := insert (tools.fullSha1 stack) s.fullSeen
          shortSeen := insert (tools.shortSha1 stack) s.shortSeen
          pc := .scan current pending
            (haveNewStacks || decide (tools.shortSha1 stack ∉ s.shortSeen)) todo }
  | matched (current : Archive) (todo : List Archive)
      (scanning : s.pc = .scan current [] true todo) (root : current.gcdaRoot = true) :
      Effect tools s .proceed
        { s with executed := current :: s.executed, pc := .cleanup current todo }
  | aborted (current : Archive) (pending : List Text) (haveNewStacks : Bool)
      (todo : List Archive) (scanning : s.pc = .scan current pending haveNewStacks todo)
      (lost : pending = [] ∧ current.gcdaRoot = false ∨ ∃ stack rest, pending = stack :: rest ∧
        tools.hasStack stack = true ∧ tools.badSha stack = true) :
      Effect tools s .proceed { s with pc := .idle }

theorem not_haveNew_of_between {s : State} (h : between s = true) : ¬ HaveNew s.pc := by
  rintro ⟨current, pending, todo, hpc⟩
  simp [between, hpc] at h

theorem scanStep_effect {tools : Tools} {s : State} {current : Archive} {stack : Text}
    {pending : List Text} {haveNewStacks : Bool} {todo : List Archive}
    (hpc : s.pc = .scan current (stack :: pending) haveNewStacks todo) :
    Effect tools s .proceed (scanStep tools s current stack pending haveNewStacks todo) := by
  unfold scanStep
  split
  case isTrue hempty => exact .passed current stack pending haveNewStacks todo hpc hempty
  case isFalse hfound =>
    have hfound : tools.hasStack stack = true := by simpa using hfound
    split
    case isTrue hbad =>
      exact .aborted current _ haveNewStacks todo hpc (.inr ⟨stack, pending, rfl, hfound, hbad⟩)
    case isFalse hgood =>
      exact .recorded current stack pending haveNewStacks todo hpc hfound (by simpa using hgood)

theorem matchStep_effect {tools : Tools} {s : State} {current : Archive} {haveNewStacks : Bool}
    {todo : List Archive} (hpc : s.pc = .scan current [] haveNewStacks todo) :
    Effect tools s .proceed (matchStep s current haveNewStacks todo) := by
  unfold matchStep
  split
  case isTrue hnone =>
    subst hnone
    apply Effect.moved
    · rintro ⟨current', pending, todo', hnew⟩
      simp [hpc] at hnew
    · simp
    · simp
    · rintro current' todo' hcleanup
      obtain ⟨rfl, rfl⟩ := Pc.cleanup.inj hcleanup
      exact hpc
  case isFalse hnew =>
    have hnew : haveNewStacks = true := by simpa using hnew
    subst hnew
    split
    case isTrue hroot => exact .aborted current [] true todo hpc (.inl ⟨rfl, hroot⟩)
    case isFalse hroot => exact .matched current todo hpc (by simpa using hroot)

theorem visitStep_effect {tools : Tools} {s : State} {archive : Archive} {todo : List Archive}
    (hpc : s.pc = .visit (archive :: todo)) :
    Effect tools s .proceed (visitStep tools s archive todo) := by
  have hold : ¬ HaveNew s.pc := by
    rintro ⟨current, pending, todo', hnew⟩
    simp [hpc] at hnew
  unfold visitStep
  split
  case isTrue => exact .moved _ _ hold (by simp) (by simp) (by simp)
  case isFalse hreadable =>
    split
    case isTrue => exact .moved _ _ hold (by simp) (by simp [hpc]) (by simp)
    case isFalse hfresh => exact .entered archive todo hpc (by simpa using hreadable) hfresh

theorem step_effect {tools : Tools} {s s' : State} {a : Action}
    (h : step tools s a = some s') : Effect tools s a s' := by
  cases a with
  | upload archive =>
      simp only [step, Option.ite_none_right_eq_some, Option.some.injEq] at h
      obtain ⟨-, rfl⟩ := h
      exact .uploaded archive
  | startFails =>
      simp only [step, Option.ite_none_right_eq_some, Option.some.injEq] at h
      obtain ⟨houtside, rfl⟩ := h
      exact .moved _ _ (not_haveNew_of_between houtside) (by simp) (by simp) (by simp)
  | start order =>
      simp only [step, Option.ite_none_right_eq_some, Option.some.injEq] at h
      obtain ⟨⟨houtside, hpattern⟩, rfl⟩ := h
      exact .started order houtside hpattern
  | mkdirFails =>
      simp only [step] at h
      split at h
      case h_2 => simp at h
      case h_1 archive todo hpc =>
        simp only [Option.ite_none_right_eq_some, Option.some.injEq] at h
        obtain ⟨-, rfl⟩ := h
        refine .moved _ _ ?_ (by simp) (by simp) (by simp)
        rintro ⟨current, pending, todo', hnew⟩
        simp [hpc] at hnew
  | proceed =>
      simp only [step, proceedStep] at h
      split at h
      case h_1 => simp at h
      case h_2 => simp at h
      case h_3 hpc =>
        obtain rfl := Option.some.inj h
        refine .moved _ _ ?_ (by simp) (by simp) (by simp)
        rintro ⟨current, pending, todo', hnew⟩
        simp [hpc] at hnew
      case h_4 archive todo hpc =>
        obtain rfl := Option.some.inj h
        exact visitStep_effect hpc
      case h_5 current stack pending haveNewStacks todo hpc =>
        obtain rfl := Option.some.inj h
        exact scanStep_effect hpc
      case h_6 current haveNewStacks todo hpc =>
        obtain rfl := Option.some.inj h
        exact matchStep_effect hpc
      case h_7 current todo hpc =>
        obtain rfl := Option.some.inj h
        have hold : ¬ HaveNew s.pc := by
          rintro ⟨current', pending, todo', hnew⟩
          simp [hpc] at hnew
        unfold cleanupStep
        split
        · exact .moved _ _ hold (by simp) (by simp) (by simp)
        · exact .moved _ _ hold (by simp) (by simp [hpc]) (by simp)

end TdvfFuzz.Stimulus
