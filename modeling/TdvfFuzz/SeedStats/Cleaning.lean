import TdvfFuzz.Foundation.LineTools
import TdvfFuzz.SeedStats.Pairing

/-!
# Removing the payloads of bad seeds

The payloads are removed by name from one directory, and the lines to remove
are found by a word that may stand in a payload as well.
-/

namespace TdvfFuzz.SeedStats

open TdvfFuzz.Foundation

/-! ## What is to be removed -/

def BadAttr (attr : Text) : Prop := attr = "useless".toList ∨ attr = "invalid".toList

instance : DecidablePred BadAttr := fun attr =>
  inferInstanceAs (Decidable (attr = "useless".toList ∨ attr = "invalid".toList))

/-- The seed of the announcement gets the attribute. -/
def Gets (log : List LogLine) (a : Announcement) (attr : Text) : Prop :=
  a ∈ announcements log ∧ ∃ flag ∈ flagged log, flag.1.seed = some a.seed ∧ flag.2 = attr

/-- The part in front of the last component. -/
def parent (path : Text) : Text := path.rdropWhile (· ≠ '/')

section

variable {D : Type} (directory : Text → D)

/-- The entry that a path names, in the directory that the part in front leads to. -/
def fileAt (path : Text) : D × Text := (directory (parent path), lastComponent path)

def BadSource (log : List LogLine) (file : D × Text) : Prop :=
  ∃ a attr, Gets log a attr ∧ BadAttr attr ∧ fileAt directory a.src = file

/-- Seeds are paired with their payloads, and the sources of bad ones are removed. -/
def CleansUp (tools : Tools) (seedsDir : Text) (log : List LogLine) (file : Text) : Prop :=
  ∃ stats, showSeedStats file = .ok stats ∧ stats = (flagged log).map (rightLine log) ∧
    ∀ target, (∃ path ∈ removed tools seedsDir stats, fileAt directory path = target) ↔
      BadSource directory log target

/-- Bad seeds come from the directory, and no other payload has one of the words in its name. -/
structure Removable (seedsDir : Text) (log : List LogLine) : Prop where
  sources : ∀ a attr, Gets log a attr → BadAttr attr →
    directory (parent a.src) = directory (seedsDir ++ ['/'])
  names : ∀ a attr, Gets log a attr → isBad (lastComponent a.src) →
    ∃ b attr', Gets log b attr' ∧ BadAttr attr' ∧ lastComponent b.src = lastComponent a.src

end

/-! ## Plain texts -/

/-- No character that the shell, `awk -v` or `xargs` replaces or splits at. -/
def isPlain (c : Char) : Bool := !" \t\n\x0b\x0c\r'\"\\*?[".toList.contains c

/-- The shell, `awk`, `xargs` and `rm` take the directory as it stands. -/
structure Plain (seedsDir : Text) : Prop where
  chars : ∀ c ∈ seedsDir, isPlain c = true
  noOption : seedsDir.head? ≠ some '-'

/-- What the two programs do with plain texts. -/
structure Tools.Documented (tools : Tools) : Prop where
  awk : ∀ dir lines, (∀ c ∈ dir, isPlain c = true) → (∀ line ∈ lines, '\n' ∉ line) →
    tools.awk ["-v".toList, "seed_dir=".toList ++ dir, awkProgram] (terminated '\n' lines) =
      terminated '\n' (lines.map fun line => dir ++ '/' :: (shellWords line)[1]?.getD [])
  xargs : ∀ words, (∀ word ∈ words, word ≠ [] ∧ ∀ c ∈ word, isPlain c = true) →
    tools.xargs (terminated '\n' words) = words

/-- Some line is taken for that of a bad seed. -/
def Picks (log : List LogLine) : Prop :=
  ∃ a attr, Gets log a attr ∧ (BadAttr attr ∨ isBad (lastComponent a.src))

/-! ## Paths -/

theorem slash_not_mem_lastComponent (path : Text) : '/' ∉ lastComponent path := by
  intro hmem
  simpa using List.mem_rtakeWhile_imp hmem

theorem fileAt_append {D : Type} (directory : Text → D) {name : Text} (dir : Text)
    (h : '/' ∉ name) :
    fileAt directory (dir ++ '/' :: name) = (directory (dir ++ ['/']), name) := by
  have hname : ∀ c ∈ name, decide (c ≠ '/') = true := by
    intro c hc
    simpa using fun hslash : c = '/' => h (hslash ▸ hc)
  rw [fileAt, parent, rdropWhile_append_cons _ _ (by simp), List.rdropWhile_eq_nil_iff.mpr hname,
    lastComponent, rtakeWhile_append_cons _ (by simp) hname]

/-! ## Words -/

theorem IsSeed.nameChar {seed : Text} (h : IsSeed seed) :
    seed ≠ [] ∧ ∀ c ∈ seed, isNameChar c = true := by
  obtain ⟨digits, rfl, -, hdigits⟩ := h
  refine ⟨by simp, List.forall_mem_append.mpr ⟨by decide, fun c hc => ?_⟩⟩
  simp [isNameChar, hdigits c hc]

theorem FirstPayload.nameChar {text payload : Text} (h : FirstPayload text payload) :
    payload ≠ [] ∧ ∀ c ∈ payload, isNameChar c = true := by
  obtain ⟨-, run, -, -, rfl, ⟨-, hrun, -⟩, -⟩ := h
  exact ⟨by simp, List.forall_mem_append.mpr ⟨by decide, hrun⟩⟩

theorem isPlain_of_nameChar {c : Char} (h : isNameChar c = true) : isPlain c = true := by
  have hspecial : ∀ d ∈ " \t\n\x0b\x0c\r'\"\\*?[".toList, isNameChar d = false := by decide
  rw [isPlain, Bool.not_eq_true', List.contains_eq_mem, decide_eq_false_iff_not]
  exact fun hmem => by simp [hspecial c hmem] at h

theorem not_blank_of_isPlain {c : Char} (h : isPlain c = true) : isBlank c = false := by
  have hne : c ≠ ' ' ∧ c ≠ '\t' ∧ c ≠ '\n' := by
    refine ⟨?_, ?_, ?_⟩ <;> rintro rfl <;> exact absurd h (by decide)
  simp [isBlank, hne]

theorem shellWords_text {seed payload : Text} (attr : Text)
    (hseed : seed ≠ [] ∧ ∀ c ∈ seed, isNameChar c = true)
    (hpayload : payload ≠ [] ∧ ∀ c ∈ payload, isNameChar c = true) :
    (shellWords (SeedLine.text ⟨seed, payload, attr⟩))[1]? = some payload := by
  have hword {word : Text} (hword : word ≠ [] ∧ ∀ c ∈ word, isNameChar c = true) :
      shellWords word = [word] :=
    shellWords_of_word hword.1 fun c hc => not_blank_of_isPlain (isPlain_of_nameChar (hword.2 c hc))
  rw [SeedLine.text, shellWords_append_blank (by rfl), shellWords_append_blank (by rfl),
    hword hseed, hword hpayload]
  rfl

theorem IsSeed.not_bad {seed : Text} (h : IsSeed seed) : ¬ isBad seed := by
  obtain ⟨digits, rfl, -, hdigits⟩ := h
  have hletter : ∀ c ∈ "seed_".toList ++ digits, c ≠ 'i' ∧ c ≠ 'u' := by
    refine List.forall_mem_append.mpr ⟨by decide, fun c hc => ?_⟩
    constructor <;> rintro rfl <;> exact absurd (hdigits _ hc) (by decide)
  rintro (hword | hword)
  · exact (hletter 'i' (hword.subset (by decide))).1 rfl
  · exact (hletter 'u' (hword.subset (by decide))).2 rfl

theorem isBad_append_blank (s t : Text) : isBad (s ++ ' ' :: t) ↔ isBad s ∨ isBad t := by
  rw [isBad, infix_append_cons_iff s t (by decide), infix_append_cons_iff s t (by decide)]
  exact or_or_or_comm

theorem isBad_attr : ∀ attr ∈ attributes.map Prod.fst, (isBad attr ↔ BadAttr attr) := by
  decide

/-- Besides the attribute, only the payload can make a line a bad one. -/
theorem isBad_text {seed attr : Text} (payload : Text) (hseed : IsSeed seed)
    (hattr : attr ∈ attributes.map Prod.fst) :
    isBad (SeedLine.text ⟨seed, payload, attr⟩) ↔ BadAttr attr ∨ isBad payload := by
  rw [SeedLine.text, isBad_append_blank, isBad_append_blank, isBad_attr attr hattr]
  simp [hseed.not_bad, or_comm]

/-! ## What is removed -/

section

variable {log : List LogLine} {file seedsDir : Text} (h : Describes log file)

include h

omit h in
theorem attr_of_mem_flagged {flag : LogLine × Text} (hflag : flag ∈ flagged log) :
    flag.2 ∈ attributes.map Prod.fst := by
  obtain ⟨attr, hattr, hmem⟩ := List.mem_flatMap.mp hflag
  obtain ⟨pair, -, rfl⟩ := List.mem_map.mp hmem
  exact List.mem_map_of_mem hattr

theorem rightLine_eq {flag : LogLine × Text} {a : Announcement} (ha : a ∈ announcements log)
    (hseed : flag.1.seed = some a.seed) :
    rightLine log flag = ⟨a.seed, lastComponent a.src, flag.2⟩ := by
  simp [rightLine, hseed, source_seed h.distinct ha]

/-- A printed line, its second word and whether it is taken for that of a bad seed. -/
theorem Gets.line {a : Announcement} {attr : Text} (hread : Readable log)
    (hgets : Gets log a attr) :
    (isBad (SeedLine.text ⟨a.seed, lastComponent a.src, attr⟩) ↔
        BadAttr attr ∨ isBad (lastComponent a.src)) ∧
      '\n' ∉ SeedLine.text ⟨a.seed, lastComponent a.src, attr⟩ ∧
      (shellWords (SeedLine.text ⟨a.seed, lastComponent a.src, attr⟩))[1]? =
        some (lastComponent a.src) ∧
      ∀ c ∈ lastComponent a.src, isPlain c = true := by
  obtain ⟨ha, flag, hflag, hseed, rfl⟩ := hgets
  have hname : IsSeed a.seed := (h.announced a ha).seed
  have hattr := attr_of_mem_flagged hflag
  obtain ⟨b, -, hpayload⟩ := hread.sources flag hflag a.seed hseed
  rw [source_seed h.distinct ha] at hpayload
  have hnewline : ∀ attr ∈ attributes.map Prod.fst, '\n' ∉ attr := by decide
  have hword : ∀ {word : Text}, (∀ c ∈ word, isNameChar c = true) → '\n' ∉ word :=
    fun hword hmem => absurd (hword _ hmem) (by decide)
  refine ⟨isBad_text _ hname hattr, ?_, shellWords_text _ hname.nameChar hpayload.nameChar,
    fun c hc => isPlain_of_nameChar (hpayload.nameChar.2 c hc)⟩
  simp [SeedLine.text, hword hname.nameChar.2, hword hpayload.nameChar.2, hnewline _ hattr]

theorem mem_badPayloads_iff (hread : Readable log) {line : Text} :
    line ∈ badPayloads ((flagged log).map (rightLine log)) ↔
      ∃ a attr, Gets log a attr ∧ (BadAttr attr ∨ isBad (lastComponent a.src)) ∧
        SeedLine.text ⟨a.seed, lastComponent a.src, attr⟩ = line := by
  simp only [badPayloads, List.mem_filter, List.mem_map, decide_eq_true_eq]
  constructor
  · rintro ⟨⟨_, ⟨flag, hflag, rfl⟩, rfl⟩, hbad⟩
    obtain ⟨a, ha, hseed⟩ := h.follows flag hflag
    have hgets : Gets log a flag.2 := ⟨ha, flag, hflag, hseed, rfl⟩
    rw [rightLine_eq h ha hseed] at hbad ⊢
    exact ⟨a, flag.2, hgets, (hgets.line h hread).1.mp hbad, rfl⟩
  · rintro ⟨a, _, hgets, hbad, rfl⟩
    have hline := (hgets.line h hread).1.mpr hbad
    obtain ⟨ha, flag, hflag, hseed, rfl⟩ := hgets
    exact ⟨⟨_, ⟨flag, hflag, rfl⟩, by rw [rightLine_eq h ha hseed]⟩, hline⟩

/-- In front of each name stands the directory as it is. -/
theorem removed_eq {tools : Tools} (htools : tools.Documented) (hread : Readable log)
    (hplain : Picks log → Plain seedsDir) :
    removed tools seedsDir ((flagged log).map (rightLine log)) =
      (badPayloads ((flagged log).map (rightLine log))).map fun line =>
        seedsDir ++ '/' :: (shellWords line)[1]?.getD [] := by
  have hlines : ∀ line, line ∈ badPayloads ((flagged log).map (rightLine log)) ↔
      ∃ a attr, Gets log a attr ∧ (BadAttr attr ∨ isBad (lastComponent a.src)) ∧
        SeedLine.text ⟨a.seed, lastComponent a.src, attr⟩ = line :=
    fun _ => mem_badPayloads_iff h hread
  generalize hbad : badPayloads ((flagged log).map (rightLine log)) = lines at hlines
  rw [removed, hbad]
  split
  case isTrue hnone => rw [hnone, List.map_nil]
  case isFalse hsome =>
    have hdir : Plain seedsDir := by
      obtain ⟨line, hline⟩ := List.exists_mem_of_ne_nil lines hsome
      obtain ⟨a, attr, hgets, hpicked, -⟩ := (hlines line).mp hline
      exact hplain ⟨a, attr, hgets, hpicked⟩
    have hargs : awkArgs seedsDir =
        ["-v".toList, "seed_dir=".toList ++ seedsDir, awkProgram] := by
      have hchars : ∀ c ∈ "seed_dir=".toList ++ seedsDir, isPlain c = true :=
        List.forall_mem_append.mpr ⟨by decide, hdir.chars⟩
      rw [awkArgs, shellWords_of_word (by simp) fun c hc => not_blank_of_isPlain (hchars c hc)]
      rfl
    have hnewline : ∀ line ∈ lines, '\n' ∉ line := by
      intro line hline
      obtain ⟨a, attr, hgets, -, rfl⟩ := (hlines line).mp hline
      exact (hgets.line h hread).2.1
    have hwords : ∀ path ∈ lines.map fun line => seedsDir ++ '/' :: (shellWords line)[1]?.getD [],
        path ≠ [] ∧ ∀ c ∈ path, isPlain c = true := by
      rw [List.forall_mem_map]
      intro line hline
      obtain ⟨a, attr, hgets, -, rfl⟩ := (hlines line).mp hline
      obtain ⟨-, -, hword, hchars⟩ := hgets.line h hread
      rw [hword, Option.getD_some]
      exact ⟨by simp, List.forall_mem_append.mpr
        ⟨hdir.chars, List.forall_mem_cons.mpr ⟨by decide, hchars⟩⟩⟩
    dsimp only
    rw [hargs, htools.awk _ _ hdir.chars hnewline, htools.xargs _ hwords, operands, if_pos]
    rw [List.all_eq_true, List.forall_mem_map]
    intro line _
    have hfirst := hdir.noOption
    cases seedsDir <;> simp_all

theorem mem_removed_iff {D : Type} (directory : Text → D) {tools : Tools}
    (htools : tools.Documented) (hread : Readable log) (hplain : Picks log → Plain seedsDir)
    {target : D × Text} :
    (∃ path ∈ removed tools seedsDir ((flagged log).map (rightLine log)),
        fileAt directory path = target) ↔
      ∃ a attr, Gets log a attr ∧ (BadAttr attr ∨ isBad (lastComponent a.src)) ∧
        (directory (seedsDir ++ ['/']), lastComponent a.src) = target := by
  have hfile : ∀ {a : Announcement} {attr : Text}, Gets log a attr →
      fileAt directory (seedsDir ++ '/' ::
        (shellWords (SeedLine.text ⟨a.seed, lastComponent a.src, attr⟩))[1]?.getD []) =
          (directory (seedsDir ++ ['/']), lastComponent a.src) := by
    intro a attr hgets
    rw [(hgets.line h hread).2.2.1, Option.getD_some,
      fileAt_append directory _ (slash_not_mem_lastComponent _)]
  rw [removed_eq h htools hread hplain]
  constructor
  · rintro ⟨path, hpath, rfl⟩
    obtain ⟨line, hline, rfl⟩ := List.mem_map.mp hpath
    obtain ⟨a, attr, hgets, hbad, rfl⟩ := (mem_badPayloads_iff h hread).mp hline
    exact ⟨a, attr, hgets, hbad, (hfile hgets).symm⟩
  · rintro ⟨a, attr, hgets, hbad, rfl⟩
    exact ⟨_, List.mem_map_of_mem ((mem_badPayloads_iff h hread).mpr ⟨a, attr, hgets, hbad, rfl⟩),
      hfile hgets⟩

/-- The sources are removed exactly if they are in the directory and no good payload looks bad. -/
theorem removed_iff_removable {D : Type} (directory : Text → D) {tools : Tools}
    (htools : tools.Documented) (hread : Readable log) (hplain : Picks log → Plain seedsDir) :
    (∀ target, (∃ path ∈ removed tools seedsDir ((flagged log).map (rightLine log)),
        fileAt directory path = target) ↔ BadSource directory log target) ↔
      Removable directory seedsDir log := by
  simp only [mem_removed_iff h directory htools hread hplain]
  constructor
  · intro htargets
    refine ⟨fun a attr hgets hbad => ?_, fun a attr hgets hbad => ?_⟩
    · obtain ⟨b, -, -, -, htarget⟩ := (htargets (fileAt directory a.src)).mpr
        ⟨a, attr, hgets, hbad, rfl⟩
      exact (congrArg Prod.fst htarget).symm
    · obtain ⟨b, attr', hgets', hbad', htarget⟩ := (htargets _).mp ⟨a, attr, hgets, .inr hbad, rfl⟩
      exact ⟨b, attr', hgets', hbad', congrArg Prod.snd htarget⟩
  · rintro hremovable target
    constructor
    · rintro ⟨a, attr, hgets, hbad | hbad, rfl⟩
      · exact ⟨a, attr, hgets, hbad, Prod.ext (hremovable.sources a attr hgets hbad) rfl⟩
      · obtain ⟨b, attr', hgets', hbad', hlast⟩ := hremovable.names a attr hgets hbad
        exact ⟨b, attr', hgets', hbad',
          Prod.ext (hremovable.sources b attr' hgets' hbad') hlast⟩
    · rintro ⟨a, attr, hgets, hbad, rfl⟩
      exact ⟨a, attr, hgets, .inl hbad,
        Prod.ext (hremovable.sources a attr hgets hbad).symm rfl⟩

end

/-- A seed, the path that it is copied from and the message behind that. -/
structure Imported where
  digit : Char
  src : Text
  message : Text

namespace Imported

def announcement (i : Imported) : Announcement :=
  ⟨['[', i.digit, ']', ' '], i.src, "seed_".toList ++ [i.digit], ['\n']⟩

def lines (i : Imported) : List LogLine := [.announcement i.announcement, .message i.message none]

end Imported

def logOf (imports : List Imported) : List LogLine := imports.flatMap Imported.lines

def fileOf (imports : List Imported) : Text := (logOf imports).flatMap LogLine.text

theorem announcements_logOf (imports : List Imported) :
    announcements (logOf imports) = imports.map Imported.announcement := by
  induction imports with
  | nil => rfl
  | cons i imports ih =>
      rw [logOf, List.flatMap_cons, announcements, List.filterMap_append]
      exact congrArg (i.announcement :: ·) ih

theorem describes_fileOf {imports : List Imported}
    (hlines : logLines (fileOf imports) = (logOf imports).map LogLine.text)
    (himports : ∀ i ∈ imports, '\n' ∉ i.src ∧ "payload_".toList <+: lastComponent i.src ∧
      i.digit.isDigit = true)
    (hdistinct : (imports.map Imported.digit).Nodup)
    (hfirst : ∀ line ∈ (logOf imports).head?, ∀ attr ∈ attributes, attr.2 line.text = false)
    (hfollows : ∀ flag ∈ flagged (logOf imports),
      ∃ a ∈ announcements (logOf imports), flag.1.seed = some a.seed) :
    Describes (logOf imports) (fileOf imports) where
  lines := hlines
  announced := by
    rw [announcements_logOf, List.forall_mem_map]
    intro i hi
    obtain ⟨hsrc, hpayload, hdigit⟩ := himports i hi
    have hnewline : i.digit ≠ '\n' := by
      rintro heq
      simp [heq, Char.isDigit] at hdigit
    exact ⟨by simp [Imported.announcement, Ne.symm hnewline], hsrc, hpayload,
      ⟨[i.digit], rfl, by simp, by simpa using hdigit⟩, .inr rfl⟩
  distinct := by
    rw [announcements_logOf, List.map_map]
    have hinjective : Function.Injective fun digit : Char => "seed_".toList ++ [digit] :=
      fun _ _ h => by simpa using h
    have hseeds := hdistinct.map hinjective
    rwa [List.map_map] at hseeds
  messages := by
    intro text named hmem
    obtain ⟨i, -, hi⟩ := List.mem_flatMap.mp hmem
    obtain ⟨-, rfl⟩ : text = i.message ∧ named = none := by simpa [Imported.lines] using hi
    simp
  first := hfirst
  follows := hfollows

def abortMessage : Text := "1 Worker-0 Guest ABORT:x\n".toList

def uselessMessage : Text :=
  "1 Worker-0 Imported payload produced no new coverage, skipping..\n".toList

def usefulMessage : Text := "1 Received new input x:\n".toList

/-- `awk` and `xargs` on plain texts. -/
def plainTools : Tools where
  awk args input :=
    match args with
    | [_, assignment, _] => terminated '\n' ((fileLines input).map fun line =>
        assignment.drop 9 ++ '/' :: (shellWords line)[1]?.getD [])
    | _ => []
  xargs := shellWords

theorem shellWords_terminated {words : List Text}
    (h : ∀ word ∈ words, word ≠ [] ∧ ∀ c ∈ word, isBlank c = false) :
    shellWords (terminated '\n' words) = words := by
  induction words with
  | nil => rfl
  | cons word words ih =>
      obtain ⟨⟨hne, hword⟩, hrest⟩ := List.forall_mem_cons.mp h
      have htext : terminated '\n' (word :: words) = word ++ '\n' :: terminated '\n' words := by
        simp [terminated]
      rw [htext, shellWords_append_blank (by rfl), shellWords_of_word hne hword, ih hrest]
      rfl

theorem plainTools_documented : plainTools.Documented where
  awk dir lines _ hlines := by
    simp [plainTools, fileLines_terminated hlines]
  xargs words hwords := shellWords_terminated fun word hword =>
    ⟨(hwords word hword).1, fun c hc => not_blank_of_isPlain ((hwords word hword).2 c hc)⟩

/-- The directory of a path without links and `..`. -/
def plainDirectory (path : Text) : List Text :=
  (path.splitOn '/').filter fun piece => piece ≠ [] ∧ piece ≠ ['.']

def seedImports : List Imported :=
  [⟨'1', "/bkc/sharedir/payload_1".toList, abortMessage⟩,
    ⟨'2', "/bkc/sharedir//payload_2".toList, uselessMessage⟩,
    ⟨'3', "/bkc/sharedir/./payload_3".toList, usefulMessage⟩]

theorem flagged_seedImports : (flagged (logOf seedImports)).map Prod.fst =
    seedImports.reverse.map fun i => .announcement i.announcement := by
  decide +kernel

def fuzzImports : List Imported :=
  [⟨'1', "/payload_fuzz/sharedir/payload_1".toList, abortMessage⟩,
    ⟨'2', "/payload_fuzz/sharedir/payload_2".toList, usefulMessage⟩]

end TdvfFuzz.SeedStats
