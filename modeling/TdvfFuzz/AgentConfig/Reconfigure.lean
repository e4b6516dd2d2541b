import TdvfFuzz.AgentConfig.Script

/-!
# Switching one flag

The region between the boundary lines is rewritten, and everything around it
is kept, if the lines of the header end with a carriage return and a newline.
With plain newlines no boundary line is found.
-/

namespace TdvfFuzz.AgentConfig

open TdvfFuzz.Foundation

/-! ## Headers -/

/-- The contents of the lines around and between the boundaries; `last` lacks its end. -/
structure Header where
  before : List Text
  region : List Text
  after : List Text
  last : Text
  oneLine : ∀ line ∈ last :: (before ++ region ++ after), OneLine line
  boundaries : ∀ line ∈ before, line ≠ configBoundaryStart ∧ line ≠ configBoundaryEnd
  inner : ∀ line ∈ region, line ≠ configBoundaryEnd

namespace Header

def lines (header : Header) : List Text :=
  header.before ++ configBoundaryStart :: (header.region ++ configBoundaryEnd :: header.after)

/-- One line end is used throughout. -/
def text (header : Header) (e : LineEnd) : Text :=
  unlines (header.lines.map fun line => (line, e)) header.last

def regionLines (header : Header) (e : LineEnd) : List Text :=
  header.region.map (· ++ e.text)

theorem oneLine_of_mem_lines (header : Header) : ∀ line ∈ header.lines, OneLine line := by
  have hstart : OneLine configBoundaryStart := by decide
  have hend : OneLine configBoundaryEnd := by decide
  intro line hline
  simp only [lines, List.mem_append, List.mem_cons] at hline
  rcases hline with h | rfl | h | rfl | h
  · exact header.oneLine line (by simp [h])
  · exact hstart
  · exact header.oneLine line (by simp [h])
  · exact hend
  · exact header.oneLine line (by simp [h])

theorem readlines_text (header : Header) (e : LineEnd) :
    readlines (header.text e) =
      header.lines.map (· ++ e.text) ++ if header.last = [] then [] else [header.last] := by
  have hlines : ∀ line ∈ header.lines.map fun line => (line, e), OneLine line.1 := by
    intro line hline
    obtain ⟨content, hcontent, rfl⟩ := List.mem_map.mp hline
    exact header.oneLine_of_mem_lines content hcontent
  rw [text, readlines_unlines hlines (header.oneLine header.last (by simp)), List.map_map]
  rfl

end Header

theorem Header.load_text (header : Header) (e : LineEnd) :
    loadAgentlib (header.text e) = .ok (readlines (header.text e)) := by
  have hfirst : ∃ line, (readlines (header.text e))[0]? = some line := by
    refine ⟨_, List.getElem?_eq_getElem ?_⟩
    rw [header.readlines_text, Header.lines]
    simp only [List.length_append, List.length_map, List.length_cons]
    omega
  obtain ⟨line, hline⟩ := hfirst
  rw [loadAgentlib, item_eq_ok.mpr hline]
  rfl

/-! ## The region is read back -/

theorem value_infix_iff (flag flag' : Flag) (isActive : Bool) :
    flag'.value <:+: configLine flag isActive ↔ flag' = flag := by
  revert isActive
  cases flag <;> cases flag' <;> decide +kernel

theorem commentedOut_configLine (flag : Flag) (isActive : Bool) :
    commentedOut (configLine flag isActive) = !isActive := by
  revert isActive
  cases flag <;> decide

theorem readLine_configLine (config : Config) (flag : Flag) (isActive : Bool) :
    readLine config (configLine flag isActive) = config.set flag isActive := by
  simp only [readLine, value_infix_iff, commentedOut_configLine, Bool.not_not, Flag.all,
    List.foldl_cons, List.foldl_nil]
  cases flag <;> rfl

/-- The lines written for a configuration are read as that configuration. -/
theorem getCurrentConfig_createConfigLines (config : Config) :
    getCurrentConfig (createConfigLines config) = config := by
  have hfold : ∀ (entries : List (Flag × Bool)) (start : Config),
      (start.entries.map Prod.fst ++ entries.map Prod.fst).Nodup →
      ((entries.map fun entry => configLine entry.1 entry.2).foldl readLine start).entries =
        start.entries ++ entries := by
    intro entries
    induction entries with
    | nil => simp
    | cons entry entries ih =>
        intro start hnodup
        have hnew : entry.1 ∉ start.keys := by
          intro hmem
          exact (List.nodup_append.mp hnodup).2.2 entry.1 hmem entry.1 (by simp) rfl
        have hentries := start.entries_set_of_not_mem entry.2 hnew
        rw [List.map_cons, List.foldl_cons, readLine_configLine, ih, hentries]
        · simp
        · rw [hentries]
          simpa using hnodup
  exact Dict.ext (hfold config.entries .empty (by simpa [Dict.empty] using config.nodup))

/-! ## The header that is written -/

def configContent (flag : Flag) (isActive : Bool) : Text :=
  (if isActive then [] else "// ".toList) ++ "#define ".toList ++ flag.value

theorem configContent_clean (flag : Flag) (isActive : Bool) :
    OneLine (configContent flag isActive) ∧ configContent flag isActive ≠ configBoundaryEnd := by
  revert isActive
  cases flag <;> decide

def Header.withConfig (header : Header) (config : Config) : Header where
  before := header.before
  region := config.entries.map fun entry => configContent entry.1 entry.2
  after := header.after
  last := header.last
  oneLine := by
    intro line hline
    simp only [List.mem_cons, List.mem_append] at hline
    rcases hline with h | (h | h) | h
    · exact header.oneLine line (by simp [h])
    · exact header.oneLine line (by simp [h])
    · obtain ⟨entry, -, rfl⟩ := List.mem_map.mp h
      exact (configContent_clean entry.1 entry.2).1
    · exact header.oneLine line (by simp [h])
  boundaries := header.boundaries
  inner := by
    intro line hline
    obtain ⟨entry, -, rfl⟩ := List.mem_map.mp hline
    exact (configContent_clean entry.1 entry.2).2

theorem Header.regionLines_withConfig (header : Header) (config : Config) :
    (header.withConfig config).regionLines .carriageReturn = createConfigLines config := by
  simp only [regionLines, withConfig, createConfigLines, List.map_map]
  rfl

def Header.libHead (header : Header) : List Text :=
  header.before.map (· ++ eol) ++ [configBoundaryStart ++ eol]

def Header.libTail (header : Header) : List Text :=
  (configBoundaryEnd ++ eol) :: header.after.map (· ++ eol) ++
    if header.last = [] then [] else [header.last]

theorem Header.readlines_parts (header : Header) :
    readlines (header.text .carriageReturn) =
      header.libHead ++ header.regionLines .carriageReturn ++ header.libTail := by
  rw [readlines_text]
  simp [lines, libHead, libTail, regionLines, LineEnd.text, eol]

/-- With the line end that the script writes, the boundaries are found. -/
theorem Header.splitLibParts_text (header : Header) :
    splitLibParts (readlines (header.text .carriageReturn)) =
      .ok (header.libHead, header.regionLines .carriageReturn, header.libTail) := by
  have hinj : ∀ {line line' : Text}, line ++ eol = line' ++ eol → line = line' :=
    List.append_cancel_right
  have hstart : configBoundaryStart ++ eol ∉ header.before.map (· ++ eol) := by
    intro hmem
    obtain ⟨line, hline, heq⟩ := List.mem_map.mp hmem
    exact (header.boundaries line hline).1 (hinj heq)
  have hend : configBoundaryEnd ++ eol ∉
      header.libHead ++ header.regionLines .carriageReturn := by
    intro hmem
    simp only [libHead, regionLines, List.mem_append, List.mem_singleton, List.mem_map] at hmem
    rcases hmem with (⟨line, hline, heq⟩ | heq) | ⟨line, hline, heq⟩
    · exact (header.boundaries line hline).2 (hinj heq)
    · exact absurd (hinj heq) (by decide)
    · exact header.inner line hline (hinj heq)
  have hindexStart : indexOf (readlines (header.text .carriageReturn))
      (configBoundaryStart ++ eol) = .ok header.before.length := by
    rw [readlines_parts, libHead, List.append_assoc, List.append_assoc, List.singleton_append,
      indexOf_append_cons _ hstart, List.length_map]
  have hindexEnd : indexOf (readlines (header.text .carriageReturn))
      (configBoundaryEnd ++ eol) =
        .ok (header.libHead ++ header.regionLines .carriageReturn).length := by
    rw [readlines_parts, libTail, List.cons_append, indexOf_append_cons _ hend]
  have hlength : header.before.length + 1 = header.libHead.length := by simp [libHead]
  rw [splitLibParts, hindexStart, bind_ok, hindexEnd, bind_ok, hlength, readlines_parts]
  simp only [List.drop_left, List.take_left]
  rw [List.append_assoc, List.take_left]
  rfl

theorem Header.text_withConfig (header : Header) (config : Config) :
    (header.libHead ++ createConfigLines config ++ header.libTail).flatten =
      (header.withConfig config).text .carriageReturn := by
  have hparts := (header.withConfig config).readlines_parts
  rw [regionLines_withConfig] at hparts
  rw [← flatten_readlines ((header.withConfig config).text .carriageReturn), hparts]
  rfl

/-! ## Switching a flag -/

/-- `--enable` or `--disable` -/
def switch (flag : Flag) (isActive : Bool) : Action :=
  if isActive then .enable flag else .disable flag

theorem main_switch (header : Header) (flag : Flag) (isActive : Bool) :
    main (switch flag isActive) (header.text .carriageReturn) =
      .ok ((header.withConfig ((getCurrentConfig (header.regionLines .carriageReturn)).set
        flag isActive)).text .carriageReturn, []) := by
  rw [main, header.load_text, bind_ok, header.splitLibParts_text, bind_ok]
  cases isActive <;>
    simp only [switch, enableFlag, disableFlag, header.text_withConfig] <;> rfl

/-- The command edits the region alone, sets the flag, and does nothing a second time. -/
def Reconfigures (header : Header) (e : LineEnd) (flag : Flag) (isActive : Bool) : Prop :=
  ∃ header' : Header,
    header'.before = header.before ∧ header'.after = header.after ∧
    header'.last = header.last ∧
    main (switch flag isActive) (header.text e) = .ok (header'.text e, []) ∧
    getCurrentConfig (header'.regionLines e) =
      (getCurrentConfig (header.regionLines e)).set flag isActive ∧
    main (switch flag isActive) (header'.text e) = .ok (header'.text e, [])

theorem reconfigures_carriageReturn (header : Header) (flag : Flag) (isActive : Bool) :
    Reconfigures header .carriageReturn flag isActive := by
  let config := (getCurrentConfig (header.regionLines .carriageReturn)).set flag isActive
  have hread : getCurrentConfig ((header.withConfig config).regionLines .carriageReturn) =
      config := by
    rw [Header.regionLines_withConfig, getCurrentConfig_createConfigLines]
  refine ⟨header.withConfig config, rfl, rfl, rfl, main_switch header flag isActive, hread, ?_⟩
  rw [main_switch, hread, Dict.set_set]
  rfl

/-- A header with plain newlines has no line that ends as the boundaries should. -/
theorem main_newline (header : Header) (action : Action) :
    main action (header.text .newline) = .error .valueError := by
  have hmissing : configBoundaryStart ++ eol ∉ readlines (header.text .newline) := by
    have hreturn : '\r' ∈ configBoundaryStart ++ eol := by decide
    intro hmem
    rw [header.readlines_text, List.mem_append, List.mem_map] at hmem
    rcases hmem with ⟨line, hline, heq⟩ | hlast
    · rw [← heq, List.mem_append] at hreturn
      have := (header.oneLine_of_mem_lines line hline).2
      simp [LineEnd.text, this] at hreturn
    · split at hlast
      · simp at hlast
      · rw [List.mem_singleton] at hlast
        exact (header.oneLine header.last (by simp)).2 (hlast ▸ hreturn)
  rw [main, header.load_text, bind_ok, splitLibParts, indexOf_of_not_mem hmissing]
  rfl

theorem reconfigures_iff (header : Header) (e : LineEnd) (flag : Flag) (isActive : Bool) :
    Reconfigures header e flag isActive ↔ e = .carriageReturn := by
  constructor
  · rintro ⟨header', -, -, -, hmain, -⟩
    cases e with
    | newline =>
        rw [main_newline] at hmain
        simp at hmain
    | carriageReturn => rfl
  · rintro rfl
    exact reconfigures_carriageReturn header flag isActive

def dummyHeader : Header where
  before := []
  region := [configContent .fuzzDummy false]
  after := []
  last := []
  oneLine := by decide
  boundaries := by decide
  inner := by decide

theorem dummyHeader_raises :
    main (.enable .fuzzDummy) (dummyHeader.text .newline) = .error .valueError ∧
    ¬ Reconfigures dummyHeader .newline .fuzzDummy true := by
  have hmain : main (.enable .fuzzDummy) (dummyHeader.text .newline) = .error .valueError := by
    decide +kernel
  refine ⟨hmain, ?_⟩
  rintro ⟨header', -, -, -, hok, -⟩
  rw [switch, if_pos rfl, hmain] at hok
  simp at hok

end TdvfFuzz.AgentConfig
