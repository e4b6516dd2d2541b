import TdvfFuzz.Foundation.FileTree
import TdvfFuzz.Harness.Setups
import TdvfFuzz.Smatcher.Matcher

/-!
# `init_harness.py`: the files of the harnesses

The script writes a directory for every selected harness and stops at the first
one that it cannot prepare.
-/

namespace TdvfFuzz.Harness

open TdvfFuzz.Foundation TdvfFuzz.Foundation.FileTree
open TdvfFuzz.Smatcher (joinPath)

/-! ## Copies -/

def baseName (path : Text) : Text := path.rtakeWhile (· ≠ '/')

/-- The file that a copy to `dest` writes. -/
def copyDest (tree : Tree) (src dest : Text) : Text :=
  if tree.isDir dest then joinPath dest (baseName src) else dest

/-- `shutil.copy` -/
def copyFile (src dest : Text) : Action := fun tree =>
  if src = copyDest tree src dest then (tree, .raised)
  else
    match tree.files src with
    | none => (tree, .raised)
    | some text => writeFile (copyDest tree src dest) text tree

/-! ## The configurations -/

structure Env where
  bkcRoot : Text
  /-- `qemu_append` of the file `KAFL_CONFIG_FILE`, or `none` if that cannot be loaded. -/
  qemuAppend : Option Text
  /-- `shutil.copytree`, with `dirs_exist_ok=True` -/
  copytree : TreeCopy

structure Args where
  output : Text
  template : Text
  seeds : Option Text

def kaflConfigDefaults : List Text := texts ["abort_time: 2", "trace: True", "log_crashes: True"]

def virtioBlk : String :=
  "qemu_extra: -drive file=$BKC_ROOT/disk.img,if=none,id=fuzzdev " ++
    "-device virtio-blk-pci,drive=fuzzdev -device virtio-rng"

/-- `KAFL_CONFIG_HARNESSES.get(harness, [])` -/
def kaflConfigHarnesses (harness : Text) : List Text :=
  if harness = "BOOT_FULL_BOOT".toList then
    texts ["abort_time: 12", "timeout: 8", "timeout_soft: 3"]
  else if harness = "BOOT_DO_BASIC".toList then texts ["abort_time: 12"]
  else if harness = "BOOT_DOINITCALLS_VIRTIO".toList then texts ["abort_time: 4"]
  else if harness = "BPH_VIRTIO_PCI_PROBE".toList then
    texts ["abort_time: 4", "timeout: 4", "timeout_soft: 2", virtioBlk]
  else if harness = "BOOT_VIRTIO_BLK_PROBE".toList then texts ["abort_time: 2", virtioBlk]
  else if harness = "US_RESUME_SUSPEND".toList then
    texts ["timeout: 10", "timeout_soft: 2", "timeout_check: True"]
  else if harness = "US_DHCP".toList then
    texts ["timeout: 6", "timeout_soft: 2", "timeout_check: True"]
  else if harness = "BPH_P9_VIRTIO_PROBE".toList then
    texts ["qemu_extra: -virtfs local,path=/tmp/kafl,mount_tag=tmp,security_model=mapped-file"]
  else if harness = "BPH_VIRTIO_CONSOLE_INIT".toList then
    texts ["qemu_extra: -device virtio-serial,max_ports=1" ++
      " -device virtconsole,chardev=kafl_serial" ++
      " -device virtio-serial-pci -device virtconsole,chardev=kafl_serial"]
  else if harness = "BPH_HANDLE_CONTROL_MESSAGE".toList then
    texts ["qemu_extra: -device virtio-serial-pci -device virtconsole,chardev=kafl_serial"]
  else []

/-- `BOOT_PARAM_HARNESSES.get(harness, None)` -/
def bootParamHarnesses (harness : Text) : Option Text :=
  (List.lookup harness (options
    [("BPH_ACPI_INIT", "fuzzing_func_harness=acpi_init"),
      ("BPH_VP_MODERN_PROBE", "fuzzing_func_harness=vp_modern_probe " ++
        "fuzzing_disallow=virtio_pci_find_capability"),
      ("BPH_VIRTIO_CONSOLE_INIT",
        "fuzzing_func_harness=init console=hvc0 console=hvc1 earlyprintk=hvc0"),
      ("BPH_VIRTIO_PCI_PROBE", "fuzzing_func_harness=virtio_pci_probe"),
      ("BPH_P9_VIRTIO_PROBE", "fuzzing_func_harness=p9_virtio_probe"),
      ("BPH_PCI_SUBSYS_INIT", "fuzzing_func_harness=pci_subsys_init"),
      ("BPH_PCIBIOS_FIXUP_IRQS", "fuzzing_func_harness=pcibios_fixup_irqs acpi=noirq"),
      ("BPH_HANDLE_CONTROL_MESSAGE", "fuzzing_func_harness=handle_control_message " ++
        "fuzzing_disallow=virtio_pci_find_capability,pci_read_config_dword console=hvc0")]))

def linuxFile (dir : Text) : Text := joinPath dir "linux.config".toList

def templateFile (dir : Text) : Text := joinPath dir "linux.template".toList

def kaflFile (dir : Text) : Text := joinPath dir "kafl.yaml".toList

def sharedirFile (dir : Text) : Text := joinPath dir "sharedir".toList

def initFile (dir : Text) : Text := joinPath (sharedirFile dir) "init.sh".toList

def optionLine (option : Text × Text) : Text := option.1 ++ '=' :: option.2

/-- What `linux_config` writes. -/
def configText (setup : Dict Text Text) : Text := terminated '\n' (setup.entries.map optionLine)

def linuxConfig (args : Args) (dir : Text) (setup : Dict Text Text) : Action :=
  (writeFile (linuxFile dir) (configText setup)).andThen
    (copyFile args.template (templateFile dir))

def selectSeedRoot (isDir : Text → Bool) (seedDir harness : Text) : Text :=
  if isDir (joinPath seedDir harness) then joinPath seedDir harness
  else if isDir (joinPath seedDir "generic".toList) then joinPath seedDir "generic".toList
  else seedDir

def seedLine (args : Args) (isDir : Text → Bool) (harness : Text) : Text :=
  match args.seeds with
  | some seeds => "seed_dir: ".toList ++ selectSeedRoot isDir seeds harness ++ ['\n']
  | none => []

/-- What `kafl_config` writes; `none` if the default boot parameters are missing. -/
def kaflYaml (env : Env) (args : Args) (isDir : Text → Bool) (harness : Text)
    (sharedir : Option Text) : Option Text :=
  let yaml := ['\n'].intercalate kaflConfigDefaults ++ '\n' ::
    (['\n'].intercalate (kaflConfigHarnesses harness) ++ ['\n'])
  let yaml := yaml ++ match sharedir with
    | some sharedir => "sharedir: ".toList ++ sharedir ++ ['\n']
    | none => []
  let yaml := yaml ++ seedLine args isDir harness
  match bootParamHarnesses harness, env.qemuAppend with
  | some params, some append =>
      some (yaml ++ "qemu_append: ".toList ++ append ++ ' ' :: params ++ ['\n'])
  | some _, none => none
  | none, _ => some yaml

def kaflConfig (env : Env) (args : Args) (dir harness : Text) (sharedir : Option Text) : Action :=
  fun tree =>
    match kaflYaml env args tree.isDir harness sharedir with
    | none => (tree, .raised)
    | some yaml => writeFile (kaflFile dir) yaml tree

def sharedirPath (env : Env) : Text := env.bkcRoot ++ "/sharedir".toList

def initrdFile (env : Env) : Text := env.bkcRoot ++ "/initrd.cpio.gz".toList

/-- `userspace_script_for_harness` -/
def userspaceScript (env : Env) (harness : Text) : Option Text :=
  if "US_".toList <+: harness then
    some (env.bkcRoot ++ "/bkc/kafl/userspace/harnesses/".toList ++ harness.drop "US_".length ++
      ".sh".toList)
  else none

def kaflSharedir (env : Env) (dir harness : Text) : Action := fun tree =>
  if tree.isDir (sharedirPath env) = false then
    (tree, .exited ("Sharedir '".toList ++ sharedirPath env ++
      "' does not exist.\nPlease do `make sharedir`.".toList))
  else if (tree.files (initrdFile env)).isNone then
    (tree, .exited ('\'' :: initrdFile env ++
      "' does not exist.\nPlease do `make initrd.cpio.gz`.".toList))
  else
    match userspaceScript env harness with
    | none => (tree, .finished)
    | some script =>
        ((env.copytree.copy (sharedirPath env) (sharedirFile dir)).andThen
          (copyFile script (initFile dir))) tree

/-! ## The loop -/

def harnessDir (args : Args) (harness : Text) : Text := joinPath args.output harness

/-- What `kafl_sharedir` returns. -/
def sharedirOf (env : Env) (args : Args) (harness : Text) : Option Text :=
  (userspaceScript env harness).map fun _ => sharedirFile (harnessDir args harness)

def prepare (env : Env) (args : Args) (harness : Text) : Action :=
  ((makedirs (harnessDir args harness)).andThen
    (linuxConfig args (harnessDir args harness) (generateSetups harness))).andThen
      ((kaflSharedir env (harnessDir args harness) harness).andThen
        (kaflConfig env args (harnessDir args harness) harness (sharedirOf env args harness)))

def prepareAll (env : Env) (args : Args) : List Text → Action
  | [] => fun tree => (tree, .finished)
  | harness :: rest => (prepare env args harness).andThen (prepareAll env args rest)

/-- `pformat(HARNESSES)` -/
def harnessList : Text :=
  '[' :: ((",\n ".toList).intercalate (harnesses.map fun name => '\'' :: name ++ ['\'']) ++ [']'])

/-- The harnesses that a pattern selects, or the message of the script. -/
def selectHarnesses (pattern : Text) : Except Text (List Text) :=
  if pattern = "help".toList ∨ pattern = "list".toList then
    .error ("Supported harnesses:\n".toList ++ harnessList)
  else
    let selected := if pattern = "all".toList then harnesses
      else harnesses.filter fun harness => pattern <:+: harness
    if selected = [] then
      .error ("Error: unrecognized harness `".toList ++ pattern ++
        "`.\nSupported patterns:\n".toList ++ harnessList)
    else .ok selected

end TdvfFuzz.Harness
