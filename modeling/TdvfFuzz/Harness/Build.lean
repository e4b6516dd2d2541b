import TdvfFuzz.Harness.Runs

/-!
# The kernel configuration of a harness

`fuzz.sh build` puts the options of the harness behind the template, which
makes them win if the template ends with a newline.
-/

namespace TdvfFuzz.Harness

open TdvfFuzz.Foundation TdvfFuzz.Foundation.FileTree
open TdvfFuzz.Smatcher (joinPath)

/-! ## Configurations -/

/-- What a line of a kernel configuration says about a symbol. -/
def lineValue (symbol line : Text) : Option Text :=
  if symbol ++ ['='] <+: line then some (line.drop (symbol.length + 1))
  else if line = "# ".toList ++ symbol ++ " is not set".toList then some ['n']
  else none

/-- The last line about a symbol counts. -/
def configValue (config symbol : Text) : Option Text :=
  lastRead (lineValue symbol) (fileLines config)

theorem lineValue_assignment {symbol name : Text} (h : '=' ∉ symbol) (hname : '=' ∉ name)
    (value : Text) :
    lineValue symbol (name ++ '=' :: value) = if name = symbol then some value else none := by
  by_cases heq : name = symbol
  · subst heq
    have hprefix : name ++ ['='] <+: name ++ '=' :: value := ⟨value, by simp⟩
    have hdrop : (name ++ '=' :: value).drop (name.length + 1) = value := by
      rw [List.append_cons]
      exact List.drop_left' (by simp)
    rw [lineValue, if_pos hprefix, if_pos rfl, hdrop]
  · have hprefix : ¬symbol ++ ['='] <+: name ++ '=' :: value := by
      rintro ⟨rest, hrest⟩
      rw [List.append_assoc, List.singleton_append] at hrest
      exact heq (eq_of_append_cons h hname hrest).1.symm
    have hcomment : name ++ '=' :: value ≠ "# ".toList ++ symbol ++ " is not set".toList := by
      intro hline
      have hmem : '=' ∈ "# ".toList ++ symbol ++ " is not set".toList := hline ▸ by simp
      simp [h] at hmem
    rw [lineValue, if_neg hprefix, if_neg hcomment, if_neg heq]

/-- An open line that does not set the symbol still does not when something is put behind it. -/
theorem lineValue_glued {symbol last name : Text} (h : '=' ∉ symbol) (hname : '=' ∉ name)
    (hlast : lineValue symbol last = none) (hne : symbol ≠ last ++ name) (value : Text) :
    lineValue symbol (last ++ (name ++ '=' :: value)) = none := by
  by_cases hmem : '=' ∈ last
  · obtain ⟨before, rest, rfl, hbefore⟩ := List.eq_append_cons_of_mem hmem
    rw [lineValue_assignment h hbefore] at hlast
    rw [List.append_assoc, List.cons_append, lineValue_assignment h hbefore]
    split_ifs at hlast ⊢
    · rfl
  · have hglued : '=' ∉ last ++ name := by simp [hmem, hname]
    rw [← List.append_assoc, lineValue_assignment h hglued, if_neg hne.symm]

/-! ## The options of a harness -/

def deterministic : Text := "CONFIG_TDX_FUZZ_KAFL_DETERMINISTIC".toList

theorem generateSetups_options : ∀ harness ∈ harnesses,
    (generateSetups harness).keys.head? = some deterministic ∧
      ∀ option ∈ (generateSetups harness).entries,
        '=' ∉ option.1 ∧ '\n' ∉ optionLine option := by
  decide +kernel

section

variable {setup : Dict Text Text} {symbol : Text} (h : '=' ∉ symbol)
  (hsetup : ∀ option ∈ setup.entries, '=' ∉ option.1 ∧ '\n' ∉ optionLine option)

include h hsetup

theorem lastRead_options :
    lastRead (lineValue symbol) (setup.entries.map optionLine) = setup.get? symbol :=
  lastRead_entries (lineValue symbol) setup fun option hmem =>
    lineValue_assignment h (hsetup option hmem).1 option.2

/-- Behind a template that ends its last line, the options win. -/
theorem configValue_ended {c : Cut} (hlast : c.last = []) :
    configValue (c.text ++ configText setup) symbol =
      (setup.get? symbol).or (configValue c.text symbol) := by
  have hlines : ∀ line ∈ c.lines ++ setup.entries.map optionLine, '\n' ∉ line := by
    apply List.forall_mem_append.mpr ⟨c.oneLine, _⟩
    exact List.forall_mem_map.mpr fun option hmem => (hsetup option hmem).2
  have htext : c.text ++ configText setup =
      terminated '\n' (c.lines ++ setup.entries.map optionLine) := by
    rw [Cut.text, hlast, List.append_nil, configText, terminated_append]
  rw [configValue, configValue, htext, fileLines_terminated hlines, lastRead_append,
    lastRead_options h hsetup, c.fileLines_text, hlast]
  simp

/-- Behind a template with an open last line, the first option is lost. -/
theorem configValue_open {c : Cut} {first : Text} (hfirst : setup.keys.head? = some first)
    (hopen : lineValue symbol c.last = none) (hne : symbol ≠ c.last ++ first)
    (hlast : c.last ≠ []) :
    configValue (c.text ++ configText setup) symbol =
      (if symbol = first then none else setup.get? symbol).or (configValue c.text symbol) := by
  obtain ⟨entries, hnodup⟩ := setup
  cases entries with
  | nil => simp [Dict.keys] at hfirst
  | cons option rest =>
      obtain rfl : option.1 = first := by simpa [Dict.keys] using hfirst
      obtain ⟨hhead, hrest⟩ := List.forall_mem_cons.mp hsetup
      rw [List.map_cons, List.nodup_cons] at hnodup
      have hlines : ∀ line ∈ optionLine option :: rest.map optionLine, '\n' ∉ line := by
        rw [List.forall_mem_cons]
        exact ⟨hhead.2, List.forall_mem_map.mpr fun other hmem => (hrest other hmem).2⟩
      have hglued : lineValue symbol (c.last ++ optionLine option) = none :=
        lineValue_glued h hhead.1 hopen hne option.2
      have hover : lastRead (lineValue symbol) (rest.map optionLine) =
          if symbol = option.1 then none
          else (Dict.mk (option :: rest) (List.nodup_cons.mpr hnodup)).get? symbol := by
        have hrestRead := @lastRead_options ⟨rest, hnodup.2⟩ symbol h hrest
        rw [hrestRead]
        by_cases heq : symbol = option.1
        · rw [if_pos heq, Dict.get?, Option.map_eq_none_iff, List.find?_eq_none]
          rintro other hmem hother
          apply hnodup.1
          rw [← heq, ← of_decide_eq_true hother]
          exact List.mem_map_of_mem hmem
        · rw [if_neg heq, Dict.get?, Dict.get?, List.find?_cons_of_neg]
          simpa using Ne.symm heq
      rw [configValue, configValue, configText, List.map_cons, c.fileLines_append hlines,
        lastRead_append, lastRead_cons, hglued, hover, c.fileLines_text, if_neg hlast,
        lastRead_append, lastRead_singleton, hopen]
      simp

end

/-! ## The build -/

/-- `build_harness`, up to the first `make` -/
def buildHarness (linuxGuest templateDir buildDir : Text) : Action := fun tree =>
  -- `realpath -e`, under `set -e`
  if (tree.has templateDir && tree.has buildDir) = false then (tree, .raised)
  else
    match tree.files (templateFile templateDir), tree.files (linuxFile templateDir) with
    | none, _ =>
        (tree, .exited ("Could not find kernel template config in ".toList ++ templateDir))
    | some _, none =>
        (tree, .exited ("Could not find kernel harnes config in ".toList ++ templateDir))
    | some template, some config =>
        if tree.isDir linuxGuest = false then
          (tree, .exited "Could not find kernel source tree at $LINUX_GUEST".toList)
        else if (tree.files (joinPath linuxGuest "Kconfig".toList)).isNone then
          (tree, .exited "$LINUX_GUEST is not pointing to a Linux source tree?".toList)
        -- `mkdir` of a name that is there
        else if tree.isDir buildDir = false then (tree, .raised)
        else writeFile (joinPath buildDir ".config".toList) (template ++ config) tree

theorem buildHarness_eq_finished {linuxGuest templateDir buildDir template config : Text}
    {tree built : Tree} (htemplate : tree.files (templateFile templateDir) = some template)
    (hconfig : tree.files (linuxFile templateDir) = some config)
    (h : buildHarness linuxGuest templateDir buildDir tree = (built, .finished)) :
    built.files (joinPath buildDir ".config".toList) = some (template ++ config) := by
  unfold buildHarness at h
  rw [htemplate, hconfig] at h
  dsimp only at h
  split_ifs at h
  · simp at h
  · simp at h
  · simp at h
  · simp at h
  · exact writeFile_self h

/-- The configuration that the kernel of a prepared harness is built from.  A template whose
last line is not ended swallows the first option of the harness. -/
theorem build_config {env : Env} {args : Args} {harness : Text} (hharness : harness ∈ harnesses)
    {tree final built : Tree} (hprepared : Prepared env args tree final harness)
    (hfile : tree.isDir (templateFile (harnessDir args harness)) = false) {c : Cut}
    (htemplate : tree.files args.template = some c.text) {linuxGuest buildDir : Text}
    (hbuild : buildHarness linuxGuest (harnessDir args harness) buildDir final =
      (built, .finished)) :
    ∃ config, built.files (joinPath buildDir ".config".toList) = some config ∧
      ∀ symbol, '=' ∉ symbol →
        (c.last = [] → configValue config symbol =
          ((generateSetups harness).get? symbol).or (configValue c.text symbol)) ∧
        (c.last ≠ [] → lineValue symbol c.last = none → symbol ≠ c.last ++ deterministic →
          configValue config symbol =
            (if symbol = deterministic then none else (generateSetups harness).get? symbol).or
              (configValue c.text symbol)) := by
  obtain ⟨hfirst, hoptions⟩ := generateSetups_options harness hharness
  obtain ⟨text, hread, htext⟩ := hprepared.template
  obtain rfl : c.text = text := Option.some.inj (htemplate.symm.trans hread)
  rw [copyDest, if_neg (by simp [hfile])] at htext
  refine ⟨_, buildHarness_eq_finished htext hprepared.linux hbuild, fun symbol h => ⟨?_, ?_⟩⟩
  · exact fun hlast => configValue_ended h hoptions hlast
  · exact fun hlast hopen hne => configValue_open h hoptions hfirst hopen hne hlast

def openTemplate : Cut where
  lines := texts ["CONFIG_PM=y"]
  last := "CONFIG_KVM_GUEST=y".toList
  oneLine := by decide
  last_open := by decide

def buildTree : Tree where
  files name := List.lookup name [("/b/guest.config".toList, openTemplate.text),
    ("/b/initrd.cpio.gz".toList, []), ("/linux/Kconfig".toList, [])]
  isDir name := (texts ["/b/sharedir", "/s", "/linux", "/build"]).contains name

def basic : Text := "BOOT_DO_BASIC".toList

theorem build_config_open : ∃ config,
    (buildHarness "/linux".toList (harnessDir userspaceArgs basic) "/build".toList
      (prepare userspaceEnv userspaceArgs basic buildTree).1).1.files "/build/.config".toList =
        some config ∧
      configValue config deterministic = none ∧
      configValue config "CONFIG_TDX_FUZZ_HARNESS_DO_BASIC".toList = some ['y'] := by
  have hapart : Apart userspaceEnv userspaceArgs [basic] := by
    unfold Apart
    decide +kernel
  have hfinished : (prepare userspaceEnv userspaceArgs basic buildTree).2 = .finished := by
    decide +kernel
  have hprepared := prepared_of_finished (by decide) hapart (Prod.ext rfl hfinished)
  have hbuilt : (buildHarness "/linux".toList (harnessDir userspaceArgs basic) "/build".toList
      (prepare userspaceEnv userspaceArgs basic buildTree).1).2 = .finished := by
    decide +kernel
  obtain ⟨config, hfile, hvalue⟩ := build_config (by decide +kernel) hprepared (by decide +kernel)
    (c := openTemplate) (by decide +kernel) (Prod.ext rfl hbuilt)
  refine ⟨config, hfile, ?_, ?_⟩
  · rw [(hvalue deterministic (by decide)).2 (by decide) (by decide +kernel) (by decide +kernel)]
    decide +kernel
  · rw [(hvalue _ (by decide)).2 (by decide) (by decide +kernel) (by decide +kernel)]
    decide +kernel

end TdvfFuzz.Harness
