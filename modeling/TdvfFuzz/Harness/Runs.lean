import TdvfFuzz.Harness.Prepare

/-!
# Every run of `init_harness.py`

A run prepares the selected harnesses in their order, up to the first that it
cannot prepare, each in a directory of its own.
-/

namespace TdvfFuzz.Harness

open TdvfFuzz.Foundation TdvfFuzz.Foundation.FileTree
open TdvfFuzz.Smatcher (joinPath)

/-! ## Paths -/

theorem entryName_of_mem_harnesses : ∀ harness ∈ harnesses, EntryName harness := by
  decide +kernel

theorem harnesses_nodup : harnesses.Nodup := by decide +kernel

def outputPrefix (args : Args) : Text :=
  if args.output = [] ∨ args.output.getLast? = some '/' then args.output else args.output ++ ['/']

theorem joinPath_of_not_mem {dir inner : Text} (h : '/' ∉ inner) (hne : dir ≠ [])
    (hlast : dir.getLast? ≠ some '/') : joinPath dir inner = dir ++ '/' :: inner := by
  have hhead : inner.head? ≠ some '/' := fun hhead => h (List.mem_of_head? hhead)
  rw [joinPath, if_neg hhead, if_neg]
  rintro (heq | heq)
  · exact hne heq
  · exact hlast heq

section

variable {args : Args} {harness : Text}

theorem harnessDir_eq (h : EntryName harness) :
    harnessDir args harness = outputPrefix args ++ harness := by
  have hhead : harness.head? ≠ some '/' := fun hhead => h.2 (List.mem_of_head? hhead)
  rw [harnessDir, joinPath, if_neg hhead, outputPrefix]
  split <;> simp

theorem joinPath_harnessDir (h : EntryName harness) {inner : Text} (hinner : '/' ∉ inner) :
    joinPath (harnessDir args harness) inner = harnessDir args harness ++ ['/'] ++ inner := by
  have hlast : (outputPrefix args ++ harness).getLast? ≠ some '/' := by
    rw [List.getLast?_append_of_ne_nil _ h.1]
    exact fun hlast => h.2 (List.mem_of_getLast? hlast)
  rw [harnessDir_eq h, joinPath_of_not_mem hinner (by simp [h.1]) hlast]
  simp

theorem under_file (h : EntryName harness) {inner : Text} (hinner : '/' ∉ inner) :
    under (harnessDir args harness) (joinPath (harnessDir args harness) inner) = true := by
  rw [joinPath_harnessDir h hinner]
  exact under_iff.mpr ⟨inner, by simp⟩

end

/-! ## Copies -/

theorem slash_not_mem_baseName (path : Text) : '/' ∉ baseName path := fun h => by
  simpa using List.mem_rtakeWhile_imp h

theorem copyDest_congr {tree tree' : Tree} {dest : Text} (h : tree'.isDir dest = tree.isDir dest)
    (src : Text) : copyDest tree' src dest = copyDest tree src dest := by
  rw [copyDest, copyDest, h]

theorem within_copyDest (tree : Tree) (src : Text) {root entry : Text} (h : EntryName entry) :
    Within (root ++ entry) (copyDest tree src (root ++ entry)) := by
  rw [copyDest]
  split
  · right
    rw [joinPath_of_not_mem (slash_not_mem_baseName src) (by simp [h.1])]
    · exact under_iff.mpr ⟨baseName src, rfl⟩
    · rw [List.getLast?_append_of_ne_nil _ h.1]
      exact fun hlast => h.2 (List.mem_of_getLast? hlast)
  · exact .refl _

theorem copyFile_files {src dest name : Text} {tree : Tree} (h : name ≠ copyDest tree src dest) :
    (copyFile src dest tree).1.files name = tree.files name := by
  unfold copyFile
  split
  · rfl
  · cases tree.files src with
    | none => rfl
    | some text => exact writeFile_files h text tree

theorem copyFile_isDir (src dest : Text) (tree : Tree) :
    (copyFile src dest tree).1.isDir = tree.isDir := by
  unfold copyFile
  split
  · rfl
  · cases tree.files src with
    | none => rfl
    | some text => exact writeFile_isDir _ text tree

theorem copyFile_eq_finished {src dest : Text} {tree final : Tree}
    (h : copyFile src dest tree = (final, .finished)) :
    ∃ text, tree.files src = some text ∧ final.files (copyDest tree src dest) = some text := by
  unfold copyFile at h
  split_ifs at h
  · simp at h
  · cases hsrc : tree.files src with
    | none => simp [hsrc] at h
    | some text =>
        rw [hsrc] at h
        exact ⟨text, rfl, writeFile_self h⟩

/-! ## The steps of one harness -/

section

variable {env : Env} {args : Args} {harness : Text} (h : EntryName harness)

include h

theorem within_templateFile (tree : Tree) (src : Text) :
    Within (templateFile (harnessDir args harness))
      (copyDest tree src (templateFile (harnessDir args harness))) := by
  rw [templateFile, joinPath_harnessDir h (by decide)]
  exact within_copyDest tree src (by decide)

theorem within_initFile (tree : Tree) (src : Text) :
    Within (initFile (harnessDir args harness))
      (copyDest tree src (initFile (harnessDir args harness))) := by
  have hlast : sharedirFile (harnessDir args harness) ≠ [] ∧
      (sharedirFile (harnessDir args harness)).getLast? ≠ some '/' := by
    rw [sharedirFile, joinPath_harnessDir h (by decide)]
    exact ⟨by simp, by simp⟩
  rw [initFile, joinPath_of_not_mem (by decide) hlast.1 hlast.2, List.append_cons]
  exact within_copyDest tree src (by decide)

theorem under_initFile :
    under (sharedirFile (harnessDir args harness)) (initFile (harnessDir args harness)) = true := by
  have hlast : sharedirFile (harnessDir args harness) ≠ [] ∧
      (sharedirFile (harnessDir args harness)).getLast? ≠ some '/' := by
    rw [sharedirFile, joinPath_harnessDir h (by decide)]
    exact ⟨by simp, by simp⟩
  rw [initFile, joinPath_of_not_mem (by decide) hlast.1 hlast.2]
  exact under_iff.mpr ⟨_, rfl⟩

/-- What belongs to one file of the harness directory does not belong to another one. -/
theorem not_within_file {entry other name : Text} (hentry : EntryName entry)
    (hother : EntryName other) (hne : entry ≠ other)
    (hname : Within (joinPath (harnessDir args harness) entry) name) :
    ¬Within (joinPath (harnessDir args harness) other) name := by
  rw [joinPath_harnessDir h hentry.2] at hname
  rw [joinPath_harnessDir h hother.2]
  exact hname.not_other hentry hother hne

omit h in
theorem keeps_copyFile {src dest : Text} (tree : Tree)
    (hdest : under (harnessDir args harness) (copyDest tree src dest) = true) :
    Keeps [harnessDir args harness] tree (copyFile src dest tree).1 where
  files name hname := copyFile_files fun heq => by
    simp [heq, hdest] at hname
  isDir name _ := by rw [copyFile_isDir]

theorem keeps_linuxConfig (setup : Dict Text Text) (tree : Tree) :
    Keeps [harnessDir args harness] tree
      (linuxConfig args (harnessDir args harness) setup tree).1 :=
  keeps_andThen (keeps_writeFile (under_file h (by decide)) _)
    (fun middle => keeps_copyFile middle
      (under_of_within (under_file h (by decide)) (within_templateFile h middle _))) tree

theorem linuxConfig_eq_finished {setup : Dict Text Text} {tree final : Tree}
    (htemplate : under (harnessDir args harness) args.template = false)
    (hfinal : linuxConfig args (harnessDir args harness) setup tree = (final, .finished)) :
    final.files (linuxFile (harnessDir args harness)) = some (configText setup) ∧
      ∃ text, tree.files args.template = some text ∧
        final.files (copyDest tree args.template (templateFile (harnessDir args harness))) =
          some text := by
  obtain ⟨middle, hwrite, hcopy⟩ := Action.andThen_eq_finished hfinal
  have hisDir : middle.isDir = tree.isDir := by
    rw [← writeFile_isDir (linuxFile (harnessDir args harness)) (configText setup) tree, hwrite]
  have hdest := copyDest_congr (congrFun hisDir (templateFile (harnessDir args harness)))
    args.template
  have hne : linuxFile (harnessDir args harness) ≠
      copyDest middle args.template (templateFile (harnessDir args harness)) := fun heq =>
    not_within_file h (by decide) (by decide) (by decide) (within_templateFile h middle _)
      (.inl heq.symm)
  obtain ⟨text, hsrc, htext⟩ := copyFile_eq_finished hcopy
  have hkeep := copyFile_files hne
  rw [hcopy, writeFile_self hwrite] at hkeep
  have hunder : under (harnessDir args harness) (linuxFile (harnessDir args harness)) = true :=
    under_file h (by decide)
  have hread := (keeps_writeFile hunder (configText setup) tree).files args.template
    (List.forall_mem_singleton.mpr htemplate)
  rw [hwrite] at hread
  exact ⟨hkeep, text, hread ▸ hsrc, hdest ▸ htext⟩

theorem kaflSharedir_files {name : Text}
    (hname : ¬Within (sharedirFile (harnessDir args harness)) name) (tree : Tree) :
    (kaflSharedir env (harnessDir args harness) harness tree).1.files name = tree.files name := by
  unfold kaflSharedir
  split_ifs
  · rfl
  · rfl
  · cases userspaceScript env harness with
    | none => rfl
    | some script =>
        have hcopytree := env.copytree.files_eq (sharedirPath env)
          (sharedirFile (harnessDir args harness)) tree name hname
        dsimp only [Action.andThen]
        split
        case h_1 middle heq =>
          rw [heq] at hcopytree
          rw [copyFile_files, hcopytree]
          rintro rfl
          exact hname (.inr (under_of_within (under_initFile h) (within_initFile h middle script)))
        case h_2 => exact hcopytree

theorem keeps_kaflSharedir (tree : Tree) :
    Keeps [harnessDir args harness] tree
      (kaflSharedir env (harnessDir args harness) harness tree).1 := by
  have hsharedir :
      under (harnessDir args harness) (sharedirFile (harnessDir args harness)) = true :=
    under_file h (by decide)
  have hinit := under_trans hsharedir (under_initFile h)
  unfold kaflSharedir
  split_ifs
  · exact .refl tree
  · exact .refl tree
  · cases userspaceScript env harness with
    | none => exact .refl tree
    | some script =>
        exact keeps_andThen (env.copytree.keeps _ hsharedir)
          (fun middle => keeps_copyFile middle
            (under_of_within hinit (within_initFile h middle script))) tree

theorem kaflSharedir_eq_finished {tree final : Tree} {script : Text}
    (hscript : userspaceScript env harness = some script)
    (hread : under (harnessDir args harness) script = false)
    (hfinal : kaflSharedir env (harnessDir args harness) harness tree = (final, .finished)) :
    ∃ text, tree.files script = some text ∧
      final.files (copyDest final script (initFile (harnessDir args harness))) = some text := by
  unfold kaflSharedir at hfinal
  split_ifs at hfinal
  · simp at hfinal
  · simp at hfinal
  · rw [hscript] at hfinal
    obtain ⟨middle, htree, hcopy⟩ := Action.andThen_eq_finished hfinal
    obtain ⟨text, hsrc, htext⟩ := copyFile_eq_finished hcopy
    have hisDir := copyFile_isDir script (initFile (harnessDir args harness)) middle
    rw [hcopy] at hisDir
    have hdest := copyDest_congr (congrFun hisDir (initFile (harnessDir args harness))) script
    have hsharedir : under (harnessDir args harness) (sharedirFile (harnessDir args harness)) =
        true := under_file h (by decide)
    have hkeep := env.copytree.files_eq (sharedirPath env)
      (sharedirFile (harnessDir args harness)) tree script fun hwithin => by
        simp [under_of_within hsharedir hwithin] at hread
    rw [htree] at hkeep
    exact ⟨text, hkeep ▸ hsrc, hdest ▸ htext⟩

omit h in
theorem kaflConfig_eq_finished {dir : Text} {sharedir : Option Text} {tree final : Tree}
    (hfinal : kaflConfig env args dir harness sharedir tree = (final, .finished)) :
    ∃ yaml, kaflYaml env args tree.isDir harness sharedir = some yaml ∧
      final.files (kaflFile dir) = some yaml ∧ final.isDir = tree.isDir ∧
        ∀ name ≠ kaflFile dir, final.files name = tree.files name := by
  unfold kaflConfig at hfinal
  cases hyaml : kaflYaml env args tree.isDir harness sharedir with
  | none => simp [hyaml] at hfinal
  | some yaml =>
      rw [hyaml] at hfinal
      have hwrite : writeFile (kaflFile dir) yaml tree = (final, .finished) := hfinal
      have hisDir := writeFile_isDir (kaflFile dir) yaml tree
      have hfiles := fun name (hne : name ≠ kaflFile dir) => writeFile_files hne yaml tree
      rw [hwrite] at hisDir hfiles
      exact ⟨yaml, rfl, writeFile_self hwrite, hisDir, hfiles⟩

theorem keeps_kaflConfig (sharedir : Option Text) (tree : Tree) :
    Keeps [harnessDir args harness] tree
      (kaflConfig env args (harnessDir args harness) harness sharedir tree).1 := by
  unfold kaflConfig
  cases kaflYaml env args tree.isDir harness sharedir with
  | none => exact .refl tree
  | some yaml => exact keeps_writeFile (under_file h (by decide)) yaml tree

theorem keeps_prepare (tree : Tree) :
    Keeps [harnessDir args harness] tree (prepare env args harness tree).1 :=
  keeps_andThen
    (keeps_andThen keeps_makedirs (keeps_linuxConfig h (generateSetups harness)))
    (keeps_andThen (keeps_kaflSharedir h) (keeps_kaflConfig h (sharedirOf env args harness))) tree

end

/-! ## Prepared harnesses -/

/-- The files that the script reads for a harness. -/
def readFiles (env : Env) (args : Args) (harness : Text) : List Text :=
  args.template :: (userspaceScript env harness).toList

/-- The directories that the script looks for. -/
def readDirs (args : Args) (harness : Text) : List Text :=
  args.seeds.toList.flatMap fun seeds => [joinPath seeds harness, joinPath seeds "generic".toList]

/-- What the script reads is outside the directories that it writes. -/
def Apart (env : Env) (args : Args) (selected : List Text) : Prop :=
  ∀ harness ∈ selected, ∀ other ∈ selected,
    (∀ name ∈ readFiles env args harness, under (harnessDir args other) name = false) ∧
      ∀ name ∈ readDirs args harness, under (harnessDir args other) name = false ∧
        name ∉ ancestors (harnessDir args other)

/-- The directory of a harness is as the script promises it. -/
structure Prepared (env : Env) (args : Args) (tree final : Tree) (harness : Text) : Prop where
  linux : final.files (linuxFile (harnessDir args harness)) =
    some (configText (generateSetups harness))
  template : ∃ text, tree.files args.template = some text ∧
    final.files (copyDest tree args.template (templateFile (harnessDir args harness))) = some text
  userspace : ∀ script, userspaceScript env harness = some script →
    ∃ text, tree.files script = some text ∧
      final.files (copyDest final script (initFile (harnessDir args harness))) = some text
  kafl : ∃ yaml, kaflYaml env args tree.isDir harness (sharedirOf env args harness) = some yaml ∧
    final.files (kaflFile (harnessDir args harness)) = some yaml

theorem kaflYaml_congr {env : Env} {args : Args} {isDir isDir' : Text → Bool} {harness : Text}
    (h : ∀ name ∈ readDirs args harness, isDir' name = isDir name) (sharedir : Option Text) :
    kaflYaml env args isDir' harness sharedir = kaflYaml env args isDir harness sharedir := by
  have hline : seedLine args isDir' harness = seedLine args isDir harness := by
    unfold seedLine
    cases heq : args.seeds with
    | none => rfl
    | some seeds =>
        have hmem : ∀ name ∈ [joinPath seeds harness, joinPath seeds "generic".toList],
            isDir' name = isDir name := fun name hname =>
          h name (by simpa [readDirs, heq] using hname)
        dsimp only
        rw [selectSeedRoot, selectSeedRoot, hmem _ (by simp), hmem _ (by simp)]
  unfold kaflYaml
  rw [hline]

section

variable {env : Env} {args : Args} {harness : Text}

theorem prepared_of_finished (h : EntryName harness) (hapart : Apart env args [harness])
    {tree final : Tree} (hfinal : prepare env args harness tree = (final, .finished)) :
    Prepared env args tree final harness := by
  obtain ⟨hfiles, hdirs⟩ := hapart harness (by simp) harness (by simp)
  obtain ⟨middle, hfirst, hsecond⟩ := Action.andThen_eq_finished hfinal
  obtain ⟨made, hmade, hlinux⟩ := Action.andThen_eq_finished hfirst
  obtain ⟨shared, hshared, hkafl⟩ := Action.andThen_eq_finished hsecond
  obtain ⟨yaml, hyaml, hyamlFile, hisDir, hrest⟩ := kaflConfig_eq_finished hkafl
  have hkeepMade := Keeps.of_eq keeps_makedirs hmade
  have hkeepLinux := Keeps.of_eq (keeps_linuxConfig h _) hlinux
  have hkeepShared := Keeps.of_eq (keeps_kaflSharedir h) hshared
  have hkeep := hkeepMade.trans hkeepLinux
  -- the last two steps write nothing but `sharedir` and `kafl.yaml`
  have hlater : ∀ entry, EntryName entry → entry ≠ "sharedir".toList → entry ≠ "kafl.yaml".toList →
      ∀ name, Within (joinPath (harnessDir args harness) entry) name →
        final.files name = middle.files name := by
    intro entry hentry hsharedir hne name hname
    have hkaflFile : name ≠ kaflFile (harnessDir args harness) := fun heq =>
      not_within_file h hentry (by decide) hne hname (.inl heq)
    have hsame : (kaflSharedir env (harnessDir args harness) harness middle).1.files name =
        middle.files name :=
      kaflSharedir_files h (not_within_file h hentry (by decide) hsharedir hname) middle
    rw [hshared] at hsame
    rw [hrest name hkaflFile, hsame]
  have hmadeFiles : (makedirs (harnessDir args harness) tree).1.files = tree.files :=
    makedirs_files tree
  rw [hmade] at hmadeFiles
  obtain ⟨hlinuxFile, text, htemplate, htext⟩ :=
    linuxConfig_eq_finished h (hfiles _ (by simp [readFiles])) hlinux
  constructor
  case linux =>
    exact (hlater "linux.config".toList (by decide) (by decide) (by decide) _ (.refl _)).trans
      hlinuxFile
  case template =>
    have hT : made.isDir (templateFile (harnessDir args harness)) =
        tree.isDir (templateFile (harnessDir args harness)) := by
      have hunder : under (harnessDir args harness) (templateFile (harnessDir args harness)) =
          true := under_file h (by decide)
      have hsame := makedirs_isDir (not_mem_ancestors_of_under hunder) tree
      rwa [hmade] at hsame
    refine ⟨text, by rw [← hmadeFiles]; exact htemplate, ?_⟩
    rw [← copyDest_congr hT, ← htext]
    exact hlater "linux.template".toList (by decide) (by decide) (by decide) _
      (within_templateFile h made _)
  case userspace =>
    intro script hscript
    obtain ⟨text, hread, htext⟩ := kaflSharedir_eq_finished h hscript
      (hfiles script (by simp [readFiles, hscript])) hshared
    have hI := copyDest_congr (congrFun hisDir (initFile (harnessDir args harness))) script
    refine ⟨text, ?_, ?_⟩
    · rw [← hread]
      exact (hkeep.files script (by simpa using hfiles script (by simp [readFiles, hscript]))).symm
    · rw [hI, hrest, htext]
      exact fun heq => not_within_file h (by decide) (by decide) (by decide)
        (.inr (under_of_within (under_initFile h) (within_initFile h shared script))) (.inl heq)
  case kafl =>
    refine ⟨yaml, ?_, hyamlFile⟩
    rw [← hyaml]
    exact (kaflYaml_congr (fun name hname => (hkeep.trans hkeepShared).isDir name
      (by simpa using hdirs name hname)) _).symm

/-- The other harnesses leave the directory of a harness as it is. -/
theorem keeps_below (h : EntryName harness) {others : List Text}
    (hothers : ∀ other ∈ others, EntryName other ∧ other ≠ harness) {tree final : Tree}
    (hkeep : Keeps (others.map (harnessDir args)) tree final) {name : Text}
    (hname : under (harnessDir args harness) name = true) :
    final.files name = tree.files name ∧ final.isDir name = tree.isDir name := by
  rw [harnessDir_eq h] at hname
  have hunder : ∀ dir ∈ others.map (harnessDir args), under dir name = false := by
    intro dir hdir
    obtain ⟨other, hmem, rfl⟩ := List.mem_map.mp hdir
    obtain ⟨hentry, hne⟩ := hothers other hmem
    rw [harnessDir_eq hentry]
    exact Bool.eq_false_iff.mpr fun htrue => hne (entry_eq_of_under hentry h htrue hname)
  refine ⟨hkeep.files name hunder, hkeep.isDir name fun dir hdir => ⟨hunder dir hdir, ?_⟩⟩
  obtain ⟨other, hmem, rfl⟩ := List.mem_map.mp hdir
  rw [harnessDir_eq (hothers other hmem).1]
  exact not_mem_ancestors_entry other (hothers other hmem).1 hname

theorem Prepared.mono (h : EntryName harness) {others : List Text}
    (hothers : ∀ other ∈ others, EntryName other ∧ other ≠ harness) {tree middle final : Tree}
    (hprepared : Prepared env args tree middle harness)
    (hkeep : Keeps (others.map (harnessDir args)) middle final) :
    Prepared env args tree final harness := by
  have hbelow := fun {name} (hname : under (harnessDir args harness) name = true) =>
    keeps_below h hothers hkeep hname
  have hsharedir :
      under (harnessDir args harness) (sharedirFile (harnessDir args harness)) = true :=
    under_file h (by decide)
  have hinit := under_trans hsharedir (under_initFile h)
  constructor
  case linux => exact (hbelow (under_file h (by decide))).1.trans hprepared.linux
  case template =>
    obtain ⟨text, hread, htext⟩ := hprepared.template
    refine ⟨text, hread, Eq.trans ?_ htext⟩
    exact (hbelow (under_of_within (under_file h (by decide)) (within_templateFile h tree _))).1
  case userspace =>
    intro script hscript
    obtain ⟨text, hread, htext⟩ := hprepared.userspace script hscript
    refine ⟨text, hread, ?_⟩
    rw [copyDest_congr (hbelow hinit).2, ← htext]
    exact (hbelow (under_of_within hinit (within_initFile h middle script))).1
  case kafl =>
    obtain ⟨yaml, hyaml, hfile⟩ := hprepared.kafl
    exact ⟨yaml, hyaml, (hbelow (under_file h (by decide))).1.trans hfile⟩

/-- The run before a harness leaves alone what the harness reads. -/
theorem Prepared.start (h : EntryName harness) {others : List Text}
    (hothers : ∀ other ∈ others, EntryName other ∧ other ≠ harness)
    (hapart : Apart env args (harness :: others)) {tree middle final : Tree}
    (hkeep : Keeps (others.map (harnessDir args)) tree middle)
    (hprepared : Prepared env args middle final harness) :
    Prepared env args tree final harness := by
  have hread : ∀ name ∈ readFiles env args harness, middle.files name = tree.files name := by
    refine fun name hname => hkeep.files name fun dir hdir => ?_
    obtain ⟨other, hmem, rfl⟩ := List.mem_map.mp hdir
    exact (hapart harness (by simp) other (by simp [hmem])).1 name hname
  have hlook : ∀ name ∈ readDirs args harness, middle.isDir name = tree.isDir name := by
    refine fun name hname => hkeep.isDir name fun dir hdir => ?_
    obtain ⟨other, hmem, rfl⟩ := List.mem_map.mp hdir
    exact (hapart harness (by simp) other (by simp [hmem])).2 name hname
  constructor
  case linux => exact hprepared.linux
  case template =>
    have hunder : under (harnessDir args harness) (templateFile (harnessDir args harness)) = true :=
      under_file h (by decide)
    rw [← hread args.template (by simp [readFiles]),
      ← copyDest_congr (keeps_below h hothers hkeep hunder).2]
    exact hprepared.template
  case userspace =>
    intro script hscript
    rw [← hread script (by simp [readFiles, hscript])]
    exact hprepared.userspace script hscript
  case kafl =>
    rw [← kaflYaml_congr hlook]
    exact hprepared.kafl

/-! ## Runs -/

theorem Apart.subset {selected selected' : List Text} (h : Apart env args selected)
    (hsub : selected' ⊆ selected) : Apart env args selected' :=
  fun harness hharness other hother => h harness (hsub hharness) other (hsub hother)

theorem prepareAll_of_finished {harness : Text} {tree middle : Tree}
    (hfirst : prepare env args harness tree = (middle, .finished)) (more : List Text) :
    prepareAll env args (harness :: more) tree = prepareAll env args more middle := by
  rw [prepareAll, Action.andThen_of_finished _ hfirst]

theorem prepareAll_of_ne {harness : Text} {tree : Tree}
    (hexit : (prepare env args harness tree).2 ≠ .finished) (more : List Text) :
    prepareAll env args (harness :: more) tree = prepare env args harness tree := by
  rw [prepareAll, Action.andThen_of_ne _ hexit]

/-- The first harness stays prepared, and the later ones are so from the start. -/
theorem prepared_cons {harness : Text} {done more : List Text} {tree middle final : Tree}
    (h : EntryName harness) (hmore : ∀ other ∈ more, EntryName other ∧ other ≠ harness)
    (hapart : Apart env args (harness :: more))
    (hfirst : prepare env args harness tree = (middle, .finished))
    (hkeep : Keeps (more.map (harnessDir args)) middle final) (hsub : done ⊆ more)
    (hdone : ∀ other ∈ done, Prepared env args middle final other) :
    ∀ other ∈ harness :: done, Prepared env args tree final other := by
  rw [List.forall_mem_cons]
  constructor
  · exact (prepared_of_finished h (hapart.subset (by simp)) hfirst).mono h hmore hkeep
  · intro other hother
    obtain ⟨hname, hne⟩ := hmore other (hsub hother)
    have hbefore : Keeps ([harness].map (harnessDir args)) tree middle :=
      Keeps.of_eq (keeps_prepare h) hfirst
    have hnot : ∀ first ∈ [harness], EntryName first ∧ first ≠ other := by
      simpa using ⟨h, hne.symm⟩
    exact (hdone other hother).start hname hnot (hapart.subset (by simp [hsub hother])) hbefore

theorem prepareAll_run {selected : List Text} (hentry : ∀ harness ∈ selected, EntryName harness)
    (hnodup : selected.Nodup) (hapart : Apart env args selected) (tree : Tree) :
    ∃ done rest, selected = done ++ rest ∧
      (prepareAll env args done tree).2 = .finished ∧
      (∀ harness ∈ rest.head?, prepareAll env args selected tree =
        prepare env args harness (prepareAll env args done tree).1) ∧
      (rest = [] ↔ (prepareAll env args selected tree).2 = .finished) ∧
      (∀ harness ∈ done,
        Prepared env args tree (prepareAll env args selected tree).1 harness) ∧
      Keeps ((done ++ rest.take 1).map (harnessDir args)) tree
        (prepareAll env args selected tree).1 := by
  induction selected generalizing tree with
  | nil => exact ⟨[], [], rfl, rfl, by simp, by simp [prepareAll], by simp, .refl tree⟩
  | cons harness selected ih =>
      have h := hentry harness (by simp)
      rw [List.nodup_cons] at hnodup
      by_cases hexit : (prepare env args harness tree).2 = .finished
      case neg =>
        have hstop := prepareAll_of_ne hexit
        refine ⟨[], harness :: selected, rfl, rfl, ?_, ?_, by simp, ?_⟩
        · intro other hother
          obtain rfl : harness = other := Option.some.inj hother
          exact hstop selected
        · simpa [hstop] using hexit
        · rw [hstop]
          exact keeps_prepare h tree
      case pos =>
        obtain ⟨middle, hfirst⟩ : ∃ middle, prepare env args harness tree = (middle, .finished) :=
          ⟨_, Prod.ext rfl hexit⟩
        have hnext := prepareAll_of_finished hfirst
        obtain ⟨done, rest, hsplit, hends, hstops, hfinished, hdone, hkeep⟩ :=
          ih (fun other hother => hentry other (by simp [hother])) hnodup.2
            (hapart.subset (by simp)) middle
        have hmem : done ++ rest.take 1 ⊆ selected := by
          intro other hother
          rw [hsplit, List.mem_append]
          exact (List.mem_append.mp hother).imp_right List.mem_of_mem_take
        have hothers : ∀ other ∈ done ++ rest.take 1, EntryName other ∧ other ≠ harness :=
          fun other hother => ⟨hentry other (by simp [hmem hother]),
            fun heq => hnodup.1 (heq ▸ hmem hother)⟩
        simp only [hnext]
        refine ⟨harness :: done, rest, by simp [hsplit], by rwa [hnext], by simpa only [hnext],
          hfinished, ?_, ?_⟩
        · exact prepared_cons h hothers (hapart.subset (List.cons_subset_cons _ hmem)) hfirst hkeep
            (List.subset_append_left _ _) hdone
        · refine ((Keeps.of_eq (keeps_prepare h) hfirst).mono ?_).trans (hkeep.mono ?_)
          · simp
          · simp

end

/-- Each pattern selects some harnesses, in the order of `HARNESSES`. -/
theorem selectHarnesses_sublist {pattern : Text} {selected : List Text}
    (h : selectHarnesses pattern = .ok selected) : selected.Sublist harnesses := by
  simp only [selectHarnesses] at h
  split_ifs at h
  · exact Except.ok.inj h ▸ .refl _
  · exact Except.ok.inj h ▸ List.filter_sublist

/-- The run of a pattern prepares the selected harnesses up to the first that fails, if any,
and changes nothing outside their directories. -/
theorem prepared_prefix {env : Env} {args : Args} {pattern : Text} {selected : List Text}
    (hselected : selectHarnesses pattern = .ok selected) (hapart : Apart env args selected)
    (tree : Tree) :
    ∃ done rest, selected = done ++ rest ∧
      (prepareAll env args done tree).2 = .finished ∧
      (∀ harness ∈ rest.head?, prepareAll env args selected tree =
        prepare env args harness (prepareAll env args done tree).1) ∧
      (rest = [] ↔ (prepareAll env args selected tree).2 = .finished) ∧
      (∀ harness ∈ done,
        Prepared env args tree (prepareAll env args selected tree).1 harness) ∧
      Keeps ((done ++ rest.take 1).map (harnessDir args)) tree
        (prepareAll env args selected tree).1 := by
  have hsublist := selectHarnesses_sublist hselected
  exact prepareAll_run (fun harness hmem => entryName_of_mem_harnesses harness
    (hsublist.subset hmem)) (harnesses_nodup.sublist hsublist) hapart tree

/-- A copy that finds nothing in its way. -/
def plainCopy : TreeCopy where
  copy src dest tree :=
    if (tree.files dest).isSome then (tree, .raised)
    else
      ({ files := fun name =>
          if under dest name then (tree.files (src ++ name.drop dest.length)).or (tree.files name)
          else tree.files name
         isDir := fun name => tree.isDir name || (ancestors dest).contains name ||
          (under dest name && tree.isDir (src ++ name.drop dest.length)) },
        .finished)
  files_eq src dest tree name h := by
    split
    · rfl
    · exact if_neg fun hunder => h (.inr hunder)
  isDir_eq src dest tree name habove hunder := by
    split
    · rfl
    · simp [habove, hunder]

def userspaceEnv : Env where
  bkcRoot := "/b".toList
  qemuAppend := none
  copytree := plainCopy

def userspaceArgs : Args where
  output := "/o".toList
  template := "/b/guest.config".toList
  seeds := some "/s".toList

def userspaceTree : Tree where
  files name := List.lookup name (options [("/b/guest.config", "CONFIG_PM=n\n"),
    ("/b/initrd.cpio.gz", ""), ("/b/sharedir/init.sh", "sh"),
    ("/b/bkc/kafl/userspace/harnesses/DHCP.sh", "dhclient")])
  isDir name := (texts ["/b/sharedir", "/s", "/s/generic"]).contains name

def userspaceHarnesses : List Text := texts ["US_DHCP", "US_RESUME_SUSPEND"]

theorem prepared_prefix_userspace :
    ∃ done rest, userspaceHarnesses = done ++ rest ∧
      (prepareAll userspaceEnv userspaceArgs done userspaceTree).2 = .finished ∧
      (∀ harness ∈ rest.head?,
        prepareAll userspaceEnv userspaceArgs userspaceHarnesses userspaceTree =
          prepare userspaceEnv userspaceArgs harness
            (prepareAll userspaceEnv userspaceArgs done userspaceTree).1) ∧
      (rest = [] ↔
        (prepareAll userspaceEnv userspaceArgs userspaceHarnesses userspaceTree).2 = .finished) ∧
      (∀ harness ∈ done, Prepared userspaceEnv userspaceArgs userspaceTree
        (prepareAll userspaceEnv userspaceArgs userspaceHarnesses userspaceTree).1 harness) ∧
      Keeps ((done ++ rest.take 1).map (harnessDir userspaceArgs)) userspaceTree
        (prepareAll userspaceEnv userspaceArgs userspaceHarnesses userspaceTree).1 := by
  have hselected : selectHarnesses "US_".toList = .ok userspaceHarnesses := by decide +kernel
  have hapart : Apart userspaceEnv userspaceArgs userspaceHarnesses := by
    unfold Apart
    decide +kernel
  exact prepared_prefix hselected hapart userspaceTree

/-- There is no script for the second harness. -/
example :
    (prepareAll userspaceEnv userspaceArgs userspaceHarnesses userspaceTree).2 = .raised := by
  decide +kernel

end TdvfFuzz.Harness
