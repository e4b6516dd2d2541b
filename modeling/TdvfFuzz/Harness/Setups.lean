import TdvfFuzz.Foundation.Layers
import TdvfFuzz.Foundation.Python

/-!
# `init_harness.py`: the kernel options of a harness

The options of a harness are those of all harnesses, of its kind and its own.
-/

namespace TdvfFuzz.Harness

open TdvfFuzz.Foundation

/-! ## The tables -/

def texts (names : List String) : List Text := names.map String.toList

def options (entries : List (String × String)) : List (Text × Text) :=
  entries.map fun entry => (entry.1.toList, entry.2.toList)

def bootHarnesses : List Text := texts
  ["BOOT_POST_TRAP", "BOOT_EARLYBOOT", "BOOT_DOINITCALLS_PCI", "BOOT_DOINITCALLS_VIRTIO",
    "BOOT_DOINITCALLS_ACPI", "BOOT_FULL_BOOT", "BOOT_REST_INIT", "BOOT_VIRTIO_BLK_PROBE",
    "BOOT_START_KERNEL", "BOOT_DO_BASIC", "BOOT_ACPI_EARLY_INIT"]

def initcallHarnesses : List Text := texts
  ["DOINITCALLS_LEVEL_3", "DOINITCALLS_LEVEL_4", "DOINITCALLS_LEVEL_5", "DOINITCALLS_LEVEL_6",
    "DOINITCALLS_LEVEL_7"]

def bphHarnesses : List Text := texts
  ["BPH_ACPI_INIT", "BPH_VP_MODERN_PROBE", "BPH_VIRTIO_CONSOLE_INIT", "BPH_P9_VIRTIO_PROBE",
    "BPH_PCI_SUBSYS_INIT", "BPH_HANDLE_CONTROL_MESSAGE", "BPH_VIRTIO_PCI_PROBE",
    "BPH_PCIBIOS_FIXUP_IRQS"]

def userHarnesses : List Text := texts ["US_DHCP", "US_RESUME_SUSPEND"]

/-- `HARNESSES` -/
def harnesses : List Text := bootHarnesses ++ initcallHarnesses ++ bphHarnesses ++ userHarnesses

def defaultKaflOptions : List (Text × Text) := options
  [("CONFIG_TDX_FUZZ_KAFL_DETERMINISTIC", "y"), ("CONFIG_TDX_FUZZ_KAFL_TRACE_LOCATIONS", "n"),
    ("CONFIG_TDX_FUZZ_KAFL_DEBUGFS", "n"), ("CONFIG_TDX_FUZZ_KAFL_VIRTIO", "y"),
    ("CONFIG_TDX_FUZZ_KAFL_SKIP_CPUID", "y"), ("CONFIG_TDX_FUZZ_KAFL_SKIP_IOAPIC_READS", "n"),
    ("CONFIG_TDX_FUZZ_KAFL_SKIP_ACPI_PIO", "n"), ("CONFIG_TDX_FUZZ_KAFL_SKIP_RNG_SEEDING", "y"),
    ("CONFIG_TDX_FUZZ_KAFL_SKIP_MSR", "n"), ("CONFIG_TDX_FUZZ_KAFL_SKIP_PARAVIRT_REWRITE", "n")]

def defaultBphOptions : List (Text × Text) := options
  [("CONFIG_KPROBES", "y"), ("CONFIG_TDX_FUZZ_HARNESS_NONE", "y")]

def defaultUsOptions : List (Text × Text) := options
  [("CONFIG_TDX_FUZZ_KAFL_DETERMINISTIC", "n"), ("CONFIG_TDX_FUZZ_KAFL_DEBUGFS", "y"),
    ("CONFIG_TDX_FUZZ_HARNESS_NONE", "y")]

/-- `harness_options.get(harness, {})` -/
def harnessOptions (harness : Text) : List (Text × Text) :=
  if harness = "BOOT_EARLYBOOT".toList then
    options [("CONFIG_TDX_FUZZ_KAFL_SKIP_PARAVIRT_REWRITE", "n")]
  else if harness = "BOOT_FULL_BOOT".toList then
    options [("CONFIG_TDX_FUZZ_KAFL_SKIP_PARAVIRT_REWRITE", "y")]
  else if harness = "BOOT_POST_TRAP".toList then
    options [("CONFIG_TDX_FUZZ_KAFL_SKIP_ACPI_PIO", "y"),
      ("CONFIG_TDX_FUZZ_KAFL_SKIP_PARAVIRT_REWRITE", "y")]
  else if harness = "BOOT_DOINITCALLS_PCI".toList then
    options [("CONFIG_TDX_FUZZ_KAFL_SKIP_ACPI_PIO", "y")]
  else if harness = "BOOT_START_KERNEL".toList then
    options [("CONFIG_TDX_FUZZ_KAFL_SKIP_ACPI_PIO", "y")]
  else if harness = "US_RESUME_SUSPEND".toList then
    options [("CONFIG_PM", "y"), ("CONFIG_PM_DEBUG", "y"), ("CONFIG_PM_ADVANCED_DEBUG", "y"),
      ("CONFIG_SUSPEND", "y"), ("CONFIG_HIBERNATION", "y"), ("CONFIG_PM_AUTOSLEEP", "n"),
      ("CONFIG_PM_WAKELOCKS", "n"), ("CONFIG_PM_TRACE_RTC", "n"), ("CONFIG_ACPI_TAD", "n"),
      ("CONFIG_FW_CACHE", "y")]
  else []

/-! ## The options of a harness -/

/-- The options that depend on the kind of the harness. -/
def kindOptions (harness : Text) : List (Text × Text) :=
  if "BOOT_".toList <+: harness then
    [("CONFIG_TDX_FUZZ_HARNESS_".toList ++ harness.drop "BOOT_".length, ['y'])]
  else if "DOINITCALLS_LEVEL".toList <+: harness then
    [("CONFIG_TDX_FUZZ_HARNESS_DOINITCALLS".toList, ['y']),
      ("CONFIG_TDX_FUZZ_HARNESS_DOINITCALLS_LEVEL".toList,
        harness.drop "DOINITCALLS_LEVEL_".length)]
  else if "BPH_".toList <+: harness then defaultBphOptions
  else if "US_".toList <+: harness then defaultUsOptions
  else []

def generateSetups (harness : Text) : Dict Text Text :=
  ((Dict.empty.update defaultKaflOptions).update (kindOptions harness)).update
    (harnessOptions harness)

end TdvfFuzz.Harness
