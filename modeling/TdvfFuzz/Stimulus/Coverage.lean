import TdvfFuzz.Stimulus.Minimizer

/-!
# Recorded stacks and executed matches

A short stack counts as seen before the match of its payload has run, and the
directory of the payload keeps the next run from trying again.  A run that
stops in between leaves a stack behind that no later run makes up for.
-/

namespace TdvfFuzz.Stimulus

open TdvfFuzz.Foundation

def Belongs (tools : Tools) (sha : Text) (archive : Archive) : Prop :=
  ∃ stack ∈ tools.pieces archive, tools.hasStack stack = true ∧ tools.shortSha1 stack = sha

/-- Every recorded short stack belongs to a payload for which the match was run. -/
def Covered (tools : Tools) (s : State) : Prop :=
  ∀ sha ∈ s.shortSeen, ∃ archive ∈ s.executed, Belongs tools sha archive

/-! ## Runs that do not stop over a new stack -/

/--
While a new stack waits for the match, the run does not stop: the next stack
has its hashes and, behind the last one, the GCDA root is there.
-/
def KeepsNew (tools : Tools) (s : State) (a : Action) : Prop :=
  a = .proceed → ∀ current pending todo, s.pc = .scan current pending true todo →
    (pending = [] → current.gcdaRoot = true) ∧
    ∀ stack rest, pending = stack :: rest → tools.hasStack stack = true →
      tools.badSha stack = false

/-- A recorded stack is covered, or belongs to the payload whose match comes next. -/
structure CoverInv (tools : Tools) (s : State) : Prop where
  shorts : ∀ sha ∈ s.shortSeen, (∃ archive ∈ s.executed, Belongs tools sha archive) ∨
    ∃ current pending todo, s.pc = .scan current pending true todo ∧ Belongs tools sha current
  suffix : ∀ current pending haveNewStacks todo,
    s.pc = .scan current pending haveNewStacks todo → pending <:+ tools.pieces current

section

variable {tools : Tools} {s s' : State}

theorem CoverInv.of_not_haveNew (h : CoverInv tools s) (hold : ¬ HaveNew s.pc) :
    Covered tools s := by
  intro sha hsha
  rcases h.shorts sha hsha with hcovered | ⟨current, pending, todo, hpc, -⟩
  · exact hcovered
  · exact absurd ⟨current, pending, todo, hpc⟩ hold

theorem CoverInv.leave (h : CoverInv tools s) (hold : ¬ HaveNew s.pc) {pc : Pc}
    (hscan : ∀ current pending haveNewStacks todo,
      pc = .scan current pending haveNewStacks todo → pending <:+ tools.pieces current)
    (archives : List Archive) (dirs : Finset Text) :
    CoverInv tools { s with archives := archives, dirs := dirs, pc := pc } :=
  ⟨fun sha hsha => .inl (h.of_not_haveNew hold sha hsha), hscan⟩

theorem coverInv_effect {a : Action} (h : CoverInv tools s) (keeps : KeepsNew tools s a)
    (effect : Effect tools s a s') : CoverInv tools s' := by
  cases effect with
  | uploaded archive => exact ⟨h.shorts, h.suffix⟩
  | started order outside pattern =>
      apply h.leave (not_haveNew_of_between outside)
      intro current pending haveNewStacks todo hpc
      split at hpc <;> simp at hpc
  | moved a pc old scan visits cleans =>
      exact h.leave old (fun current pending haveNewStacks todo hpc =>
        absurd hpc (scan current pending haveNewStacks todo)) s.archives s.dirs
  | entered archive todo visiting readable fresh =>
      apply h.leave
      · rintro ⟨current, pending, todo', hnew⟩
        simp [visiting] at hnew
      · intro current pending haveNewStacks todo' hpc
        obtain ⟨rfl, rfl, -, -⟩ := Pc.scan.inj hpc
        exact List.suffix_rfl
  | passed current stack pending haveNewStacks todo scanning empty =>
      have hsuffix := h.suffix _ _ _ _ scanning
      refine ⟨fun sha hsha => ?_, ?_⟩
      · rcases h.shorts sha hsha with hcovered | ⟨current', pending', todo', hpc, hbelongs⟩
        · exact .inl hcovered
        · obtain ⟨rfl, -, rfl, -⟩ := Pc.scan.inj (scanning.symm.trans hpc)
          exact .inr ⟨current, pending, todo, rfl, hbelongs⟩
      · intro current' pending' haveNewStacks' todo' hpc
        obtain ⟨rfl, rfl, -, -⟩ := Pc.scan.inj hpc
        exact (List.suffix_cons stack pending).trans hsuffix
  | recorded current stack pending haveNewStacks todo scanning found good =>
      have hsuffix := h.suffix _ _ _ _ scanning
      have hbelongs : Belongs tools (tools.shortSha1 stack) current :=
        ⟨stack, hsuffix.subset (by simp), found, rfl⟩
      refine ⟨fun sha hsha => ?_, ?_⟩
      · by_cases hseen : sha ∈ s.shortSeen
        · rcases h.shorts sha hseen with hcovered | ⟨current', pending', todo', hpc, hbelongs'⟩
          · exact .inl hcovered
          · obtain ⟨rfl, -, rfl, -⟩ := Pc.scan.inj (scanning.symm.trans hpc)
            exact .inr ⟨current, pending, todo, by simp, hbelongs'⟩
        · obtain rfl := (Finset.mem_insert.mp hsha).resolve_right hseen
          exact .inr ⟨current, pending, todo, by simp [hseen], hbelongs⟩
      · intro current' pending' haveNewStacks' todo' hpc
        obtain ⟨rfl, rfl, -, -⟩ := Pc.scan.inj hpc
        exact (List.suffix_cons stack pending).trans hsuffix
  | matched current todo scanning root =>
      refine ⟨fun sha hsha => .inl ?_, by simp⟩
      rcases h.shorts sha hsha with ⟨archive, hmem, hbelongs⟩ |
        ⟨current', pending', todo', hpc, hbelongs⟩
      · exact ⟨archive, List.mem_cons_of_mem current hmem, hbelongs⟩
      · obtain ⟨rfl, -, -, -⟩ := Pc.scan.inj (scanning.symm.trans hpc)
        exact ⟨current, by simp, hbelongs⟩
  | aborted current pending haveNewStacks todo scanning lost =>
      apply h.leave (fun hnew => ?_) (by simp) s.archives s.dirs
      obtain ⟨current', pending', todo', hpc⟩ := hnew
      obtain ⟨rfl, rfl, -, -⟩ := Pc.scan.inj (scanning.symm.trans hpc)
      obtain ⟨hroot, hgood⟩ := keeps rfl current pending todo' hpc
      rcases lost with ⟨hnil, hmissing⟩ | ⟨stack, rest, hpending, hfound, hbad⟩
      · simp [hroot hnil] at hmissing
      · simp [hgood stack rest hpending hfound] at hbad

theorem coverInv_of_keepsNew (h : (minimizer tools).ReachableBy (KeepsNew tools) s) :
    CoverInv tools s :=
  h.invariant ⟨by simp [minimizer], by simp [minimizer]⟩
    fun _ _ _ hs keeps enabled => coverInv_effect hs keeps (step_effect enabled)

theorem covered_of_keepsNew (h : (minimizer tools).ReachableBy (KeepsNew tools) s)
    (hended : s.pc = .ended) : Covered tools s := by
  apply (coverInv_of_keepsNew h).of_not_haveNew
  rintro ⟨current, pending, todo, hpc⟩
  simp [hended] at hpc

end

/-! ## Archives that cannot lose a stack -/

def recordedStacks (tools : Tools) (archive : Archive) : List Text :=
  ((tools.pieces archive).takeWhile fun stack =>
    !(tools.hasStack stack && tools.badSha stack)).filter fun stack => tools.hasStack stack

/-- An archive with a stack that is recorded has hashes for all and its GCDA root. -/
def Safe (tools : Tools) (archive : Archive) : Prop :=
  archive.readable = true → archive.name ∉ seenDirs → recordedStacks tools archive ≠ [] →
    archive.gcdaRoot = true ∧
      ∀ stack ∈ tools.pieces archive, tools.hasStack stack = true → tools.badSha stack = false

/-- Only archives from `U` are placed into the dump folder. -/
def UploadsIn (U : Archive → Prop) (_ : State) (a : Action) : Prop :=
  ∀ archive, a = .upload archive → U archive

def Pc.todo : Pc → List Archive
  | .idle | .ended => []
  | .visit todo | .scan _ _ _ todo | .cleanup _ todo => todo

structure Scanning (U : Archive → Prop) (tools : Tools) (current : Archive)
    (pending : List Text) (haveNewStacks : Bool) : Prop where
  mem : U current
  readable : current.readable = true
  notSeen : current.name ∉ seenDirs
  scanned : ∃ done, tools.pieces current = done ++ pending ∧
    (∀ stack ∈ done, tools.hasStack stack = true → tools.badSha stack = false) ∧
    (haveNewStacks = true → ∃ stack ∈ done, tools.hasStack stack = true)

structure ScanInv (U : Archive → Prop) (tools : Tools) (s : State) : Prop where
  archives : ∀ archive ∈ s.archives, U archive
  todo : ∀ archive ∈ s.pc.todo, U archive
  dirs : between s = false → seenDirs ⊆ s.dirs
  scan : ∀ current pending haveNewStacks todo,
    s.pc = .scan current pending haveNewStacks todo →
    Scanning U tools current pending haveNewStacks

section

variable {U : Archive → Prop} {tools : Tools} {s s' : State}

theorem Scanning.next {current : Archive} {stack : Text} {pending : List Text}
    {haveNewStacks haveNewStacks' : Bool}
    (h : Scanning U tools current (stack :: pending) haveNewStacks)
    (good : tools.hasStack stack = true → tools.badSha stack = false)
    (new : haveNewStacks' = true → haveNewStacks = true ∨ tools.hasStack stack = true) :
    Scanning U tools current pending haveNewStacks' := by
  obtain ⟨done, hpieces, hgood, hnew⟩ := h.scanned
  refine ⟨h.mem, h.readable, h.notSeen, done ++ [stack], by simp [hpieces], ?_, ?_⟩
  · intro stack' hstack'
    rcases List.mem_append.mp hstack' with hdone | hlast
    · exact hgood stack' hdone
    · exact List.mem_singleton.mp hlast ▸ good
  · intro hnew'
    rcases new hnew' with hold | hstack
    · obtain ⟨stack', hmem, hhas⟩ := hnew hold
      exact ⟨stack', by simp [hmem], hhas⟩
    · exact ⟨stack, by simp, hstack⟩

theorem scanInv_effect {a : Action} (h : ScanInv U tools s) (uploads : UploadsIn U s a)
    (effect : Effect tools s a s') : ScanInv U tools s' := by
  have hscan : ∀ {current pending haveNewStacks todo},
      s.pc = .scan current pending haveNewStacks todo →
      (∀ archive ∈ todo, U archive) ∧ seenDirs ⊆ s.dirs := by
    intro current pending haveNewStacks todo hpc
    exact ⟨fun archive hmem => h.todo archive (by simpa [hpc, Pc.todo] using hmem),
      h.dirs (by simp [between, hpc])⟩
  cases effect with
  | uploaded archive =>
      refine ⟨fun archive' hmem => ?_, h.todo, h.dirs, h.scan⟩
      rcases List.mem_cons.mp hmem with rfl | hmem
      · exact uploads archive' rfl
      · exact h.archives archive' hmem
  | started order outside pattern =>
      refine ⟨h.archives, fun archive hmem => ?_, fun _ => Finset.subset_union_right, ?_⟩
      · apply h.archives archive (pattern.subset _)
        unfold startStep at hmem
        split at hmem <;> simp_all [Pc.todo]
      · intro current pending haveNewStacks todo hpc
        unfold startStep at hpc
        split at hpc <;> simp at hpc
  | moved a pc old scan visits cleans =>
      refine ⟨h.archives, ?_, ?_, ?_⟩
      · intro archive hmem
        cases hpc : pc with
        | idle => simp [hpc, Pc.todo] at hmem
        | ended => simp [hpc, Pc.todo] at hmem
        | scan current pending haveNewStacks todo => exact absurd hpc (scan _ _ _ _)
        | visit todo =>
            apply h.todo archive
            rcases visits todo hpc with ⟨first, hold⟩ | ⟨current, hold⟩ <;>
              simp_all [Pc.todo]
        | cleanup current todo =>
            apply h.todo archive
            have hold := cleans current todo hpc
            simp_all [Pc.todo]
      · intro hrunning
        apply h.dirs
        cases hpc : pc with
        | idle => simp [between, hpc] at hrunning
        | ended => simp [between, hpc] at hrunning
        | scan current pending haveNewStacks todo => exact absurd hpc (scan _ _ _ _)
        | visit todo =>
            rcases visits todo hpc with ⟨first, hold⟩ | ⟨current, hold⟩ <;> simp [between, hold]
        | cleanup current todo => simp [between, cleans current todo hpc]
      · intro current pending haveNewStacks todo hpc
        exact absurd hpc (scan _ _ _ _)
  | entered archive todo visiting readable fresh =>
      have hdirs : seenDirs ⊆ s.dirs := h.dirs (by simp [between, visiting])
      refine ⟨h.archives, fun archive' hmem => h.todo archive' ?_,
        fun _ => hdirs.trans (Finset.subset_insert _ _), ?_⟩
      · simp only [visiting, Pc.todo] at hmem ⊢
        exact List.mem_cons_of_mem _ hmem
      · intro current pending haveNewStacks todo' hpc
        obtain ⟨rfl, rfl, rfl, -⟩ := Pc.scan.inj hpc
        exact ⟨h.todo archive (by simp [visiting, Pc.todo]), readable,
          fun hmem => fresh (hdirs hmem), [], rfl, by simp, by simp⟩
  | passed current stack pending haveNewStacks todo scanning empty =>
      obtain ⟨htodo, hdirs⟩ := hscan scanning
      refine ⟨h.archives, htodo, fun _ => hdirs, ?_⟩
      intro current' pending' haveNewStacks' todo' hpc
      obtain ⟨rfl, rfl, rfl, -⟩ := Pc.scan.inj hpc
      exact (h.scan _ _ _ _ scanning).next (by simp [empty]) .inl
  | recorded current stack pending haveNewStacks todo scanning found good =>
      obtain ⟨htodo, hdirs⟩ := hscan scanning
      refine ⟨h.archives, htodo, fun _ => hdirs, ?_⟩
      intro current' pending' haveNewStacks' todo' hpc
      obtain ⟨rfl, rfl, -, -⟩ := Pc.scan.inj hpc
      exact (h.scan _ _ _ _ scanning).next (fun _ => good) fun _ => .inr found
  | matched current todo scanning root =>
      obtain ⟨htodo, hdirs⟩ := hscan scanning
      exact ⟨h.archives, htodo, fun _ => hdirs, by simp⟩
  | aborted current pending haveNewStacks todo scanning lost =>
      exact ⟨h.archives, by simp [Pc.todo], by simp [between], by simp⟩

theorem keepsNew_of_safe (hsafe : ∀ archive, U archive → Safe tools archive)
    (h : ScanInv U tools s) (a : Action) : KeepsNew tools s a := by
  rintro - current pending todo hpc
  have hscanning := h.scan _ _ _ _ hpc
  obtain ⟨done, hpieces, hgood, hnew⟩ := hscanning.scanned
  obtain ⟨stack, hmem, hstack⟩ := hnew rfl
  have hrecorded : stack ∈ recordedStacks tools current := by
    have hall : ∀ stack ∈ done, (!(tools.hasStack stack && tools.badSha stack)) = true := by
      intro stack' hmem'
      have := hgood stack' hmem'
      cases hhas : tools.hasStack stack' <;> simp_all
    rw [recordedStacks, hpieces, List.takeWhile_append_of_pos hall]
    simp [hmem, hstack]
  obtain ⟨hroot, hall⟩ := hsafe current hscanning.mem hscanning.readable hscanning.notSeen
    (List.ne_nil_of_mem hrecorded)
  refine ⟨fun _ => hroot, ?_⟩
  rintro stack' rest rfl
  exact hall stack' (by simp [hpieces])

theorem covered_of_safe (hsafe : ∀ archive, U archive → Safe tools archive)
    (h : (minimizer tools).ReachableBy (UploadsIn U) s) (hended : s.pc = .ended) :
    Covered tools s := by
  have hinv : ScanInv U tools s ∧ CoverInv tools s := by
    apply h.invariant
    · exact ⟨⟨by simp [minimizer], by simp [minimizer, Pc.todo], by simp [minimizer, between],
        by simp [minimizer]⟩, by simp [minimizer], by simp [minimizer]⟩
    · rintro s a s' ⟨hscan, hcover⟩ uploads enabled
      have heffect := step_effect enabled
      exact ⟨scanInv_effect hscan uploads heffect,
        coverInv_effect hcover (keepsNew_of_safe hsafe hscan a) heffect⟩
  apply hinv.2.of_not_haveNew
  rintro ⟨current, pending, todo, hpc⟩
  simp [hended] at hpc

end

/-! ## A run that stops, and the run behind it -/

section

variable {U : Archive → Prop} {tools : Tools}

theorem proceed_reachable {s s' : State} (h : (minimizer tools).ReachableBy (UploadsIn U) s)
    (enabled : proceedStep tools s = some s') :
    (minimizer tools).ReachableBy (UploadsIn U) s' :=
  h.step (a := .proceed) (by simp [UploadsIn]) enabled

theorem reach_scanned {current : Archive} {good rest : List Text}
    (hgood : ∀ stack ∈ good, tools.hasStack stack = true → tools.badSha stack = false)
    {s : State} {haveNewStacks : Bool}
    (h : (minimizer tools).ReachableBy (UploadsIn U) s)
    (hpc : s.pc = .scan current (good ++ rest) haveNewStacks [])
    (hnew : haveNewStacks = true ∨ s.shortSeen = ∅) :
    ∃ s' haveNewStacks', (minimizer tools).ReachableBy (UploadsIn U) s' ∧
      s'.pc = .scan current rest haveNewStacks' [] ∧ s'.archives = s.archives ∧
      s'.dirs = s.dirs ∧ s'.executed = s.executed ∧
      (haveNewStacks' = true ∨ s'.shortSeen = ∅) ∧ s.shortSeen ⊆ s'.shortSeen ∧
      ∀ stack ∈ good, tools.hasStack stack = true → s'.shortSeen ≠ ∅ := by
  induction good generalizing s haveNewStacks with
  | nil => exact ⟨s, haveNewStacks, h, hpc, rfl, rfl, rfl, hnew, subset_rfl, by simp⟩
  | cons stack good ih =>
      obtain ⟨hstack, hgood⟩ := List.forall_mem_cons.mp hgood
      have hproceed : proceedStep tools s =
          some (scanStep tools s current stack (good ++ rest) haveNewStacks []) := by
        simp [proceedStep, hpc]
      have hnext := proceed_reachable h hproceed
      cases hhas : tools.hasStack stack with
      | false =>
          rw [scanStep, if_pos hhas] at hnext
          obtain ⟨s', new', hreach, hpc', harchives, hdirs, hexecuted, hnew', hsub, hall⟩ :=
            ih hgood hnext rfl hnew
          refine ⟨s', new', hreach, hpc', harchives, hdirs, hexecuted, hnew', hsub, ?_⟩
          rw [List.forall_mem_cons]
          exact ⟨by simp [hhas], hall⟩
      | true =>
          rw [scanStep, if_neg (by simp [hhas]), if_neg (by simp [hstack hhas])] at hnext
          have hnew' : (haveNewStacks || decide (tools.shortSha1 stack ∉ s.shortSeen)) = true ∨
              insert (tools.shortSha1 stack) s.shortSeen = ∅ := by
            rcases hnew with rfl | hempty
            · simp
            · simp [hempty]
          obtain ⟨s', new', hreach, hpc', harchives, hdirs, hexecuted, hnew', hsub, hall⟩ :=
            ih hgood hnext rfl hnew'
          have hne : s'.shortSeen ≠ ∅ :=
            Finset.ne_empty_of_mem (hsub (Finset.mem_insert_self _ _))
          exact ⟨s', new', hreach, hpc', harchives, hdirs, hexecuted, hnew',
            (Finset.subset_insert _ _).trans hsub, fun _ _ _ => hne⟩

theorem reach_stopped {archive : Archive} (hU : U archive) (h : ¬ Safe tools archive) :
    ∃ s, (minimizer tools).ReachableBy (UploadsIn U) s ∧ s.pc = .idle ∧
      s.archives = [archive] ∧ archive.name ∈ s.dirs ∧ s.executed = [] ∧ s.shortSeen ≠ ∅ := by
  simp only [Safe, not_forall] at h
  obtain ⟨hreadable, hname, hrecorded, hlost⟩ := h
  have hupload : (minimizer tools).ReachableBy (UploadsIn U)
      ⟨[archive], ∅, ∅, ∅, [], .idle⟩ := by
    apply Machine.ReachableBy.init.step (a := .upload archive)
    · rintro archive' heq
      cases heq
      exact hU
    · simp [minimizer, step, between]
  have hstart : (minimizer tools).ReachableBy (UploadsIn U)
      ⟨[archive], seenDirs, ∅, ∅, [], .visit [archive]⟩ := by
    apply hupload.step (a := .start [archive])
    · simp [UploadsIn]
    · simp [minimizer, step, between, startStep]
  have hscan : (minimizer tools).ReachableBy (UploadsIn U)
      ⟨[archive], insert archive.name seenDirs, ∅, ∅, [],
        .scan archive (tools.pieces archive) false []⟩ := by
    apply proceed_reachable hstart
    simp [proceedStep, visitStep, hreadable, hname]
  let good := (tools.pieces archive).takeWhile fun stack =>
    !(tools.hasStack stack && tools.badSha stack)
  let rest := (tools.pieces archive).dropWhile fun stack =>
    !(tools.hasStack stack && tools.badSha stack)
  have hsplit : tools.pieces archive = good ++ rest :=
    (List.takeWhile_append_dropWhile ..).symm
  have hgood : ∀ stack ∈ good, tools.hasStack stack = true → tools.badSha stack = false := by
    intro stack hmem hhas
    have := List.mem_takeWhile_imp hmem
    simpa [hhas] using this
  have hentered : Pc.scan archive (tools.pieces archive) false [] =
      .scan archive (good ++ rest) false [] := by rw [← hsplit]
  obtain ⟨s, new, hreach, hpc, harchives, hdirs, hexecuted, hnew, -, hall⟩ :=
    reach_scanned hgood hscan hentered (.inr rfl)
  obtain ⟨stack, hstack⟩ := List.exists_mem_of_ne_nil _ hrecorded
  obtain ⟨hmem, hhas⟩ := List.mem_filter.mp hstack
  have hne : s.shortSeen ≠ ∅ := hall stack hmem hhas
  refine ⟨{ s with pc := .idle }, proceed_reachable hreach ?_, rfl, harchives, ?_, hexecuted, hne⟩
  · cases hrest : rest with
    | nil =>
        -- every stack has its hashes, so the GCDA root is what is missing
        have hroot : archive.gcdaRoot = false := by
          by_contra hroot
          apply hlost
          refine ⟨by simpa using hroot, ?_⟩
          rw [hsplit, hrest, List.append_nil]
          exact hgood
        rw [hrest] at hpc
        simp [proceedStep, hpc, matchStep, hnew.resolve_right hne, hroot]
    | cons bad rest' =>
        have hhead := List.head?_dropWhile_not
          (fun stack => !(tools.hasStack stack && tools.badSha stack)) (tools.pieces archive)
        rw [show (tools.pieces archive).dropWhile _ = bad :: rest' from hrest] at hhead
        have hbad : tools.hasStack bad = true ∧ tools.badSha bad = true := by
          simpa using hhead
        rw [hrest] at hpc
        simp [proceedStep, hpc, scanStep, hbad]
  · rw [hdirs]
    exact Finset.mem_insert_self _ _

theorem exists_uncovered {archive : Archive} (hU : U archive) (h : ¬ Safe tools archive) :
    ∃ s, (minimizer tools).ReachableBy (UploadsIn U) s ∧ s.pc = .ended ∧ ¬ Covered tools s := by
  have hreadable : archive.readable = true := by
    by_contra hreadable
    exact h fun hr => absurd hr hreadable
  obtain ⟨s, hreach, hpc, harchives, hdir, hexecuted, hne⟩ := reach_stopped hU h
  have hstart : (minimizer tools).ReachableBy (UploadsIn U)
      { s with dirs := s.dirs ∪ seenDirs, pc := .visit [archive] } := by
    apply hreach.step (a := .start [archive])
    · simp [UploadsIn]
    · simp [minimizer, step, between, hpc, harchives, startStep]
  have hskip : (minimizer tools).ReachableBy (UploadsIn U)
      { s with dirs := s.dirs ∪ seenDirs, pc := .visit [] } := by
    apply proceed_reachable hstart
    simp [proceedStep, visitStep, hreadable, hdir]
  refine ⟨{ s with dirs := s.dirs ∪ seenDirs, pc := .ended }, proceed_reachable hskip rfl, rfl, ?_⟩
  intro hcovered
  obtain ⟨sha, hsha⟩ := Finset.nonempty_iff_ne_empty.mpr hne
  obtain ⟨archive', hmem, -⟩ := hcovered sha hsha
  simp [hexecuted] at hmem

end

/-! ## The exact condition -/

theorem minimizer_covers_iff (tools : Tools) (U : Archive → Prop) :
    (∀ s, (minimizer tools).ReachableBy (KeepsNew tools) s → s.pc = .ended → Covered tools s) ∧
    ((∀ s, (minimizer tools).ReachableBy (UploadsIn U) s → s.pc = .ended → Covered tools s) ↔
      ∀ archive, U archive → Safe tools archive) := by
  refine ⟨fun s h => covered_of_keepsNew h, ?_, fun hsafe s h => covered_of_safe hsafe h⟩
  intro hcovers archive hU
  by_contra hunsafe
  obtain ⟨s, hreach, hended, huncovered⟩ := exists_uncovered hU hunsafe
  exact huncovered (hcovers s hreach hended)

/-- Commands for a trace that is one stack of one line, with the line as its hash. -/
def lineTools : Tools where
  csplit trace := [trace]
  grepQuiet pattern stack := pattern = "^ => ".toList ∧ stack.take 4 = " => ".toList
  grep _ stack := stack
  grepAfter _ stack := stack
  sha1 stack := stack

def rootless : Archive := ⟨"payload".toList, true, some " => tdg_fuzz".toList, false, true⟩

/-- The first run exits for want of a GCDA root, and the second one skips the payload. -/
def rerunSchedule : List Action :=
  [.upload rootless, .start [rootless], .proceed, .proceed, .proceed, .start [rootless],
    .proceed, .proceed]

theorem rootless_uncovered :
    ∃ s, (minimizer lineTools).run (minimizer lineTools).init rerunSchedule = some s ∧
      (minimizer lineTools).Reachable s ∧ s.pc = .ended ∧
      s.shortSeen = {" => tdg_fuzz".toList} ∧ s.executed = [] ∧ ¬ Covered lineTools s := by
  have hrun : ∃ s, (minimizer lineTools).run (minimizer lineTools).init rerunSchedule = some s ∧
      s.pc = .ended ∧ s.shortSeen = {" => tdg_fuzz".toList} ∧ s.executed = [] :=
    ⟨_, rfl, rfl, rfl, rfl⟩
  obtain ⟨s, hs, hended, hseen, hexecuted⟩ := hrun
  refine ⟨s, hs, (Machine.Reachable.init _).run _ hs, hended, hseen, hexecuted, ?_⟩
  intro hcovered
  obtain ⟨archive, hmem, -⟩ := hcovered (" => tdg_fuzz".toList) (by simp [hseen])
  simp [hexecuted] at hmem

end TdvfFuzz.Stimulus
