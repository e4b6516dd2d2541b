import TdvfFuzz.Audit.Annotation
import TdvfFuzz.AuditFilter.Script

/-!
# Findings in scope

The tests of the filter run on the texts between two `;`.  Such a text is the
finding behind a newline, except in front of the report, and the tests do not
stop at the end of the path.
-/

namespace TdvfFuzz.AuditFilter

open TdvfFuzz.Foundation

/-! ## The audited subsystems -/

/-- The path behind a leading `./`. -/
def relativePath (path : Text) : Text := if "./".toList <+: path then path.drop 2 else path

structure InScope (path : Text) : Prop where
  inTree : ¬ parentDir <:+: path
  notSound : ¬ soundDir <+: relativePath path
  notSamples : ¬ samplesDir <+: relativePath path
  drivers : driversDir <+: relativePath path →
    (∃ x ∈ tdxAllowedDrivers, x <+: relativePath path) ∧ ¬ controllerDir <+: relativePath path

theorem inScope_iff {path : Text} : InScope path ↔
    ¬ parentDir <:+: path ∧ ¬ soundDir <+: relativePath path ∧
      ¬ samplesDir <+: relativePath path ∧ (driversDir <+: relativePath path →
        (∃ x ∈ tdxAllowedDrivers, x <+: relativePath path) ∧
          ¬ controllerDir <+: relativePath path) :=
  ⟨fun h => ⟨h.1, h.2, h.3, h.4⟩, fun h => ⟨h.1, h.2.1, h.2.2.1, h.2.2.2⟩⟩

instance : DecidablePred InScope := fun _ => decidable_of_iff _ inScope_iff.symm

/-! ## Reports -/

/-- A finding whose second line has the name of the pattern, in quotes or not. -/
structure Record extends Audit.Finding where
  named : smatchPatternName <:+: message
  path_ne_nil : path ≠ []
  colon : ':' ∉ path
  id_ne_nil : id ≠ []
  unseparated : ';' ∉ toFinding.text

namespace Record

def finding (r : Record) : Text := '\t' :: r.message

def lines (r : Record) : List Text := [r.header, r.finding ++ [';']]

end Record

/-- A report is its lines, those of the records and others in between. -/
structure Report where
  lines : List Text
  records : List Record
  oneLine : ∀ line ∈ lines, '\n' ∉ line
  interleaved : (lines.filter fun line => !noise line) = records.flatMap Record.lines

def Report.text (report : Report) : Text := ['\n'].intercalate report.lines

def bare (x : Text) : Text := x.dropWhile (· == '\n')

/-- The records in an output file, without the newlines in front of them. -/
def writtenRecords (output : Text) : List Text := ((output.splitOn ';').map bare).filter (· ≠ [])

def Report.wanted (report : Report) : List Text :=
  ((report.records.filter (InScope ·.path)).map (·.text)).eraseDups

/-! ## Texts of a record -/

section

variable {r r' : Record}

theorem Record.text_eq (r : Record) : r.text = r.header ++ '\n' :: r.finding := by
  simp [Audit.Finding.text, Audit.newlineTab, finding]

theorem Record.newline_not_mem_finding (r : Record) : '\n' ∉ r.finding := by
  simp [finding, r.oneLine]

theorem Record.header_eq_of_text (h : r.text = r'.text) : r.header = r'.header := by
  have hfirst : ∀ r : Record, firstField '\n' r.text = r.header := fun r => by
    rw [r.text_eq, firstField_append_sep _ r.newline_not_mem_header]
  rw [← hfirst r, h, hfirst]

theorem Record.header_path (r : Record) : ∃ rest, r.header = r.path ++ ':' :: rest := by
  refine ⟨r.line ++ ' ' :: r.func ++ "() ".toList ++ r.level ++ [':', ' ', '\x7b'] ++ r.id ++
    ['\x7d'], ?_⟩
  simp [Audit.Finding.header]

theorem Record.path_eq_of_text (h : r.text = r'.text) : r.path = r'.path := by
  have hfirst : ∀ r : Record, firstField ':' r.header = r.path := fun r => by
    obtain ⟨rest, hrest⟩ := r.header_path
    rw [hrest, firstField_append_sep _ r.colon]
  rw [← hfirst r, Record.header_eq_of_text h, hfirst]

/-! ### Lines of the report -/

theorem Record.header_not_noise (r : Record) : noise r.header = false := by
  have hid : ∀ before, Audit.idPattern.Accepts before ('\x7b' :: (r.id ++ ['\x7d'])) []
      [r.id] := by
    intro before
    refine ⟨['\x7b'], r.id ++ ['\x7d'], [], [r.id], rfl, rfl, ⟨⟨_, rfl, by simp⟩, rfl⟩,
      r.id, ['\x7d'], [r.id], [], rfl, rfl, ⟨[], ⟨r.idChars, ?_, rfl⟩, rfl⟩,
      ⟨_, rfl, by simp⟩, rfl⟩
    exact List.length_pos_of_ne_nil r.id_ne_nil
  have hsearch := Regex.search_isSome (r.path ++ ':' :: r.line ++ ' ' :: r.func ++
    "() ".toList ++ r.level ++ [':', ' ']) (by simp) hid
  have hheader : r.header = (r.path ++ ':' :: r.line ++ ' ' :: r.func ++ "() ".toList ++
      r.level ++ [':', ' ']) ++ (('\x7b' :: (r.id ++ ['\x7d'])) ++ []) := by
    simp [Audit.Finding.header]
  rw [← hheader] at hsearch
  simp [noise, Option.isSome_iff_ne_none.mp hsearch]

theorem Record.finding_not_noise (r : Record) : noise (r.finding ++ [';']) = false := by
  have hnamed : smatchPatternName <:+: r.finding ++ [';'] :=
    r.named.trans ⟨['\t'], [';'], by simp [finding]⟩
  simp [noise, hnamed]

theorem Record.filter_lines (r : Record) : (r.lines.filter fun line => !noise line) = r.lines := by
  simp [lines, r.header_not_noise, r.finding_not_noise]

/-! ### The texts between two `;` -/

/-- A line with `spectre` gets a `;` of its own. -/
def Record.pieces (r : Record) : List Text :=
  (if spectre <:+: r.header then [r.header, '\n' :: r.finding] else [r.text]) ++
    if spectre <:+: r.finding then [[]] else []

/-- Behind another record the first piece keeps the newline of the line before. -/
def Record.laterPieces (r : Record) : List Text := r.pieces.modifyHead ('\n' :: ·)

theorem Record.clean_lines (r : Record) :
    r.lines.flatMap cleanLine = terminated ';' r.pieces ++ ['\n'] := by
  have hfinding : spectre <:+: r.finding ++ [';'] ↔ spectre <:+: r.finding := by
    rw [infix_append_cons_iff _ _ (by decide), List.infix_nil]
    exact or_iff_left (by decide)
  simp only [lines, List.flatMap_cons, List.flatMap_nil, List.append_nil, cleanLine, hfinding,
    pieces, terminated_append]
  split <;> split <;> simp [terminated, r.text_eq]

theorem Record.not_mem_pieces {x : Text} (h : x ∈ r.pieces) : ';' ∉ x := by
  have htext := r.unseparated
  rw [r.text_eq, List.mem_append, List.mem_cons, not_or, not_or] at htext
  rcases List.mem_append.mp h with h | h
  · split at h
    · rcases List.mem_pair.mp h with rfl | rfl
      · exact htext.1
      · simpa using htext.2.2
    · rw [List.mem_singleton.mp h]
      exact r.unseparated
  · split at h <;> simp_all

theorem Record.terminated_laterPieces (r : Record) :
    '\n' :: terminated ';' r.pieces = terminated ';' r.laterPieces := by
  unfold laterPieces pieces
  split <;> simp [terminated]

theorem Record.not_mem_laterPieces {x : Text} (h : x ∈ r.laterPieces) : ';' ∉ x := by
  have hne : r.pieces ≠ [] := by
    unfold pieces
    split <;> simp
  obtain ⟨first, others, hpieces⟩ := List.exists_cons_of_ne_nil hne
  rw [laterPieces, hpieces, List.modifyHead_cons] at h
  rcases List.mem_cons.mp h with rfl | h
  · have := r.not_mem_pieces (x := first) (by simp [hpieces])
    simpa using this
  · exact r.not_mem_pieces (by simp [hpieces, h])

end

/-! ## The results of a report -/

theorem Report.dataClean_text (report : Report) :
    dataClean report.text =
      report.records.flatMap fun r => terminated ';' r.pieces ++ ['\n'] := by
  have hlines : ((report.text.splitOn '\n').filter fun line => !noise line) =
      report.records.flatMap Record.lines := by
    by_cases hnil : report.lines = []
    · have hrecords := report.interleaved
      rw [hnil, List.filter_nil] at hrecords
      rw [← hrecords, Report.text, hnil]
      decide
    · rw [Report.text, List.splitOn_intercalate _ report.oneLine hnil, report.interleaved]
  rw [dataClean, hlines, List.flatMap_assoc]
  simp only [Record.clean_lines]

theorem splitOn_clean (first : Record) (rest : List Record) :
    (((first :: rest).flatMap fun r => terminated ';' r.pieces ++ ['\n']).splitOn ';') =
      first.pieces ++ rest.flatMap Record.laterPieces ++ [['\n']] := by
  have hrest : '\n' :: (rest.flatMap fun r => terminated ';' r.pieces ++ ['\n']) =
      terminated ';' (rest.flatMap Record.laterPieces) ++ ['\n'] := by
    induction rest with
    | nil => rfl
    | cons r rest ih =>
        rw [List.flatMap_cons, List.flatMap_cons, terminated_append, ← r.terminated_laterPieces]
        simp [ih]
  have hclean : ((first :: rest).flatMap fun r => terminated ';' r.pieces ++ ['\n']) =
      terminated ';' (first.pieces ++ rest.flatMap Record.laterPieces) ++ ['\n'] := by
    rw [List.flatMap_cons, terminated_append]
    simp [hrest]
  rw [hclean, splitOn_terminated_append]
  · rfl
  · intro x hx
    rcases List.mem_append.mp hx with hx | hx
    · exact Record.not_mem_pieces hx
    · obtain ⟨r, -, hr⟩ := List.mem_flatMap.mp hx
      exact Record.not_mem_laterPieces hr

/-! ## Which texts pass -/

/-- The text gets dropped: the tests find `../` or a directory anywhere in it. -/
def Discarded (r : Record) (x : Text) : Prop :=
  parentDir <:+: x ∨ soundDir <+: r.path ∨ samplesDir <+: r.path ∨
    driversDir <+: relativePath r.path ∧
      (controllerDir <:+: x ∨ ∀ d ∈ tdxAllowedDrivers, ¬ d <:+: x)

instance (r : Record) (x : Text) : Decidable (Discarded r x) :=
  inferInstanceAs (Decidable (_ ∨ _))

theorem infix_newline_cons {p : Text} (x : Text) (hne : p ≠ []) (h : '\n' ∉ p) :
    p <:+: '\n' :: x ↔ p <:+: x := by
  have := infix_append_cons_iff [] x h
  rw [List.nil_append, List.infix_nil] at this
  rw [this, or_iff_right hne]

theorem not_prefix_cons {p : Text} {c d : Char} (s : Text) (hp : p.head? = some c)
    (hne : c ≠ d) : ¬ p <+: d :: s := by
  cases p with
  | nil => simp at hp
  | cons e p =>
      obtain rfl : e = c := by simpa using hp
      rw [List.cons_prefix_cons]
      exact fun h => hne h.1

theorem drivers_iff (path : Text) :
    driversDir <+: path ∨ curDriversDir <+: path ↔ driversDir <+: relativePath path := by
  have hcur : curDriversDir = "./".toList ++ driversDir := by decide
  unfold relativePath
  split
  case isTrue h =>
    obtain ⟨tail, rfl⟩ := h
    have hno : ¬ driversDir <+: "./".toList ++ tail :=
      not_prefix_cons (c := 'd') ('/' :: tail) (by decide) (by decide)
    rw [hcur, List.prefix_append_right_inj, or_iff_right hno]
    rfl
  case isFalse h =>
    rw [or_iff_left]
    exact fun hprefix => h ((List.prefix_append _ _).trans (hcur ▸ hprefix))

section

variable {r : Record}

theorem passes_newline_cons {x rest : Text} (hx : x = r.path ++ ':' :: rest) :
    passes ('\n' :: x) = true ↔ ¬ Discarded r x := by
  have hne : x ≠ [] := by simp [hx]
  have hprefix : ∀ {p : Text}, ':' ∉ p → ('\n' :: p <+: '\n' :: x ↔ p <+: r.path) := by
    intro p hp
    rw [List.cons_prefix_cons, hx, prefix_append_cons_iff _ _ hp]
    simp
  have hinside : ∀ {p : Text}, p ≠ [] → '\n' ∉ p → (p <:+: '\n' :: x ↔ p <:+: x) :=
    fun hp hnewline => infix_newline_cons x hp hnewline
  have hdrivers : (∀ d ∈ tdxAllowedDrivers, ¬ d <:+: '\n' :: x) ↔
      ∀ d ∈ tdxAllowedDrivers, ¬ d <:+: x := by
    have hd : ∀ d ∈ tdxAllowedDrivers, d ≠ [] ∧ '\n' ∉ d := by decide
    exact forall₂_congr fun d hmem => not_congr (hinside (hd d hmem).1 (hd d hmem).2)
  have hexcluded : excluded ('\n' :: x) = true ↔ soundDir <+: r.path ∨ samplesDir <+: r.path ∨
      driversDir <+: relativePath r.path ∧
        (controllerDir <:+: x ∨ ∀ d ∈ tdxAllowedDrivers, ¬ d <:+: x) := by
    rw [excluded, decide_eq_true_iff, hprefix (by decide), hprefix (by decide),
      hprefix (by decide), hprefix (by decide), drivers_iff, hinside (by decide) (by decide),
      hdrivers]
  rw [passes, decide_eq_true_iff, hinside (by decide) (by decide), ← Bool.not_eq_true,
    hexcluded, Discarded, not_or]
  simp [hne]

theorem passes_newline_finding :
    passes ('\n' :: r.finding) = true ↔ ¬ parentDir <:+: r.finding := by
  have hexcluded : excluded ('\n' :: r.finding) = false := by
    have hno : ∀ p ∈ [soundDir, samplesDir, driversDir, curDriversDir],
        ¬ '\n' :: p <+: '\n' :: r.finding := by
      intro p hp hprefix
      rw [List.cons_prefix_cons, Record.finding] at hprefix
      have hhead : ∀ p ∈ [soundDir, samplesDir, driversDir, curDriversDir],
          p.head? = some 's' ∨ p.head? = some 'd' ∨ p.head? = some '.' := by decide
      rcases hhead p hp with h | h | h <;>
        exact not_prefix_cons _ h (by decide) hprefix.2
    simp only [List.forall_mem_cons] at hno
    simp [excluded, hno]
  rw [passes, decide_eq_true_iff, infix_newline_cons _ (by decide) (by decide), hexcluded]
  simp [Record.finding]

/-- In front of the report no test but the one for `../` can fail. -/
theorem passes_front {x rest : Text} (hx : x = r.path ++ ':' :: rest) :
    passes x = true ↔ ¬ parentDir <:+: x := by
  obtain ⟨c, path, hpath⟩ := List.exists_cons_of_ne_nil r.path_ne_nil
  have hc : c ≠ '\n' := by
    rintro rfl
    have := r.words '\n' (by simp [hpath])
    simp [isSpace] at this
  have hsemicolon : c ≠ ';' := by
    rintro rfl
    apply r.unseparated
    simp [Audit.Finding.text, Audit.Finding.header, hpath]
  have hexcluded : excluded x = false := by
    simp [excluded, hx, hpath, Ne.symm hc]
  rw [passes, decide_eq_true_iff, hexcluded]
  simp [hx, hpath, hc, hsemicolon]

end

end TdvfFuzz.AuditFilter
