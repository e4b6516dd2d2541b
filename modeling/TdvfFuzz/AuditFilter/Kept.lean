import TdvfFuzz.AuditFilter.Scope

/-!
# When the filter keeps the findings in scope

The first record of a report, records whose message names a directory and
records with `spectre` in their first line are where the texts of the results
and the paths of the findings part.
-/

namespace TdvfFuzz.AuditFilter

open TdvfFuzz.Foundation

/-! ## The condition -/

def FirstKept (r : Record) : Prop :=
  if spectre <:+: r.header then
    ¬ InScope r.path ∧ parentDir <:+: r.header ∧ parentDir <:+: r.finding
  else InScope r.path ↔ ¬ parentDir <:+: r.text

/-- A record behind others; a copy of the first record is not recognised as one. -/
def LaterKept (first r : Record) : Prop :=
  if spectre <:+: r.header then
    ¬ InScope r.path ∧ Discarded r r.header ∧ parentDir <:+: r.finding
  else if InScope r.path then
    (parentDir <:+: r.text ∨ driversDir <+: relativePath r.path ∧ controllerDir <:+: r.text) ↔
      r.text = first.text
  else Discarded r r.text

def KeepsScope : List Record → Prop
  | [] => True
  | first :: rest => FirstKept first ∧ ∀ r ∈ rest, LaterKept first r

section

variable {first r : Record} {rest : List Record}

theorem relativePath_eq_self {p path : Text} {c : Char} (hp : p.head? = some c) (hc : c ≠ '.')
    (h : p <+: path) : relativePath path = path := by
  unfold relativePath
  rw [if_neg]
  rintro ⟨tail, rfl⟩
  exact not_prefix_cons ('/' :: tail) hp hc h

theorem relativePath_isInfix (path : Text) : relativePath path <:+: path := by
  unfold relativePath
  split
  · exact (List.drop_suffix 2 path).isInfix
  · exact List.infix_rfl

theorem Record.text_path (r : Record) : ∃ rest, r.text = r.path ++ ':' :: rest := by
  obtain ⟨rest, hrest⟩ := r.header_path
  exact ⟨rest ++ '\n' :: r.finding, by rw [r.text_eq, hrest]; simp⟩

theorem discarded_of_inScope (h : InScope r.path) :
    Discarded r r.text ↔
      parentDir <:+: r.text ∨ driversDir <+: relativePath r.path ∧ controllerDir <:+: r.text := by
  have hsound : ¬ soundDir <+: r.path := fun hprefix =>
    h.notSound ((relativePath_eq_self (c := 's') (by decide) (by decide) hprefix).symm ▸ hprefix)
  have hsamples : ¬ samplesDir <+: r.path := fun hprefix =>
    h.notSamples ((relativePath_eq_self (c := 's') (by decide) (by decide) hprefix).symm ▸ hprefix)
  have hpath : relativePath r.path <:+: r.text := by
    obtain ⟨rest, hrest⟩ := r.text_path
    exact (relativePath_isInfix r.path).trans (hrest ▸ List.infix_append_left)
  rw [Discarded, or_iff_right hsound, or_iff_right hsamples]
  apply or_congr_right
  apply and_congr_right
  intro hdrivers
  obtain ⟨d, hd, hallowed⟩ := (h.drivers hdrivers).1
  exact or_iff_left fun hnone => hnone d hd (hallowed.isInfix.trans hpath)

/-! ### What passes of a record -/

theorem filter_extra (r : Record) :
    (if spectre <:+: r.finding then [([] : Text)] else []).filter passes = [] := by
  have hblank : passes [] = false := by decide
  split <;> simp [hblank]

theorem filter_pieces (r : Record) :
    r.pieces.filter passes =
      if spectre <:+: r.header then
        (if parentDir <:+: r.header then [] else [r.header]) ++
          if parentDir <:+: r.finding then [] else ['\n' :: r.finding]
      else if parentDir <:+: r.text then [] else [r.text] := by
  obtain ⟨_, hheader⟩ := r.header_path
  obtain ⟨_, htext⟩ := r.text_path
  rw [Record.pieces, List.filter_append, filter_extra, List.append_nil]
  split
  · simp only [List.filter_cons, List.filter_nil, passes_front hheader, passes_newline_finding]
    split_ifs <;> simp_all
  · simp only [List.filter_cons, List.filter_nil, passes_front htext]
    split_ifs <;> simp_all

theorem filter_laterPieces (r : Record) :
    r.laterPieces.filter passes =
      if spectre <:+: r.header then
        (if Discarded r r.header then [] else ['\n' :: r.header]) ++
          if parentDir <:+: r.finding then [] else ['\n' :: r.finding]
      else if Discarded r r.text then [] else ['\n' :: r.text] := by
  obtain ⟨_, hheader⟩ := r.header_path
  obtain ⟨_, htext⟩ := r.text_path
  have hpieces : r.laterPieces =
      (if spectre <:+: r.header then ['\n' :: r.header, '\n' :: r.finding]
        else ['\n' :: r.text]) ++ if spectre <:+: r.finding then [[]] else [] := by
    unfold Record.laterPieces Record.pieces
    split <;> simp
  rw [hpieces, List.filter_append, filter_extra, List.append_nil]
  split
  · simp only [List.filter_cons, List.filter_nil, passes_newline_cons hheader,
      passes_newline_finding]
    split_ifs <;> simp_all
  · simp only [List.filter_cons, List.filter_nil, passes_newline_cons htext]
    split_ifs <;> simp_all

theorem filter_pieces_of_firstKept (h : FirstKept r) :
    r.pieces.filter passes = if InScope r.path then [r.text] else [] := by
  rw [filter_pieces]
  unfold FirstKept at h
  split_ifs at h ⊢ <;> simp_all

theorem filter_laterPieces_of_laterKept (h : LaterKept first r) :
    r.laterPieces.filter passes =
      if InScope r.path ∧ r.text ≠ first.text then ['\n' :: r.text] else [] := by
  rw [filter_laterPieces]
  unfold LaterKept at h
  split at h
  case isTrue hspectre => simp [hspectre, h]
  case isFalse hspectre =>
    rw [if_neg hspectre]
    split at h
    case isTrue hscope =>
      rw [← discarded_of_inScope hscope] at h
      simp [h, hscope]
    case isFalse hscope => simp [h, hscope]

end

/-! ## What is written -/

section

variable {r : Record}

theorem bare_of_head {x : Text} (hx : x ≠ []) (hhead : x.head? ≠ some '\n') :
    bare x = x ∧ bare ('\n' :: x) = x := by
  obtain ⟨c, x, rfl⟩ := List.exists_cons_of_ne_nil hx
  have hc : c ≠ '\n' := by simpa using hhead
  simp [bare, hc]

theorem Record.head_ne_newline {x rest : Text} (hx : x = r.path ++ ':' :: rest) :
    x.head? ≠ some '\n' := by
  obtain ⟨c, path, hpath⟩ := List.exists_cons_of_ne_nil r.path_ne_nil
  have hc := r.words c (by simp [hpath])
  simp only [hx, hpath, List.cons_append, List.head?_cons, ne_eq, Option.some.injEq]
  rintro rfl
  simp [isSpace] at hc

theorem Record.bare_path {x rest : Text} (hx : x = r.path ++ ':' :: rest) :
    bare x = x ∧ bare ('\n' :: x) = x := by
  apply bare_of_head
  · simp [hx]
  · exact Record.head_ne_newline hx

theorem Record.bare_header (r : Record) :
    bare r.header = r.header ∧ bare ('\n' :: r.header) = r.header := by
  obtain ⟨_, hheader⟩ := r.header_path
  exact Record.bare_path hheader

theorem Record.bare_text (r : Record) :
    bare r.text = r.text ∧ bare ('\n' :: r.text) = r.text := by
  obtain ⟨_, htext⟩ := r.text_path
  exact Record.bare_path htext

theorem Record.bare_finding (r : Record) : bare ('\n' :: r.finding) = r.finding :=
  (bare_of_head (by simp [finding]) (by simp [finding])).2

theorem Record.lines_ne_nil (r : Record) : r.header ≠ [] ∧ r.finding ≠ [] ∧ r.text ≠ [] := by
  simp [Audit.Finding.header, Audit.Finding.text, finding]

theorem Record.text_ne_header (r r' : Record) : r.text ≠ r'.header := fun h =>
  r'.newline_not_mem_header (h ▸ by simp [r.text_eq])

theorem Record.text_ne_finding (r r' : Record) : r.text ≠ r'.finding := fun h =>
  r'.newline_not_mem_finding (h ▸ by simp [r.text_eq])

def passing : List Record → List Text
  | [] => []
  | first :: rest => first.pieces.filter passes ++ rest.flatMap (·.laterPieces.filter passes)

theorem filter_results (report : Report) :
    ((dataClean report.text).splitOn ';').filter passes = passing report.records := by
  have hnewline : passes ['\n'] = false := by decide
  rw [report.dataClean_text]
  cases report.records with
  | nil => decide
  | cons first rest =>
      rw [splitOn_clean, List.filter_append, List.filter_append, List.filter_flatMap]
      simp [passing, hnewline]

theorem mem_map_bare_pieces (r : Record) (y : Text) :
    y ∈ (r.pieces.filter passes).map bare ↔
      if spectre <:+: r.header then
        y = r.header ∧ ¬ parentDir <:+: r.header ∨ y = r.finding ∧ ¬ parentDir <:+: r.finding
      else y = r.text ∧ ¬ parentDir <:+: r.text := by
  rw [filter_pieces]
  split_ifs <;> simp_all [r.bare_header, r.bare_text, r.bare_finding]

theorem mem_map_bare_laterPieces (r : Record) (y : Text) :
    y ∈ (r.laterPieces.filter passes).map bare ↔
      if spectre <:+: r.header then
        y = r.header ∧ ¬ Discarded r r.header ∨ y = r.finding ∧ ¬ parentDir <:+: r.finding
      else y = r.text ∧ ¬ Discarded r r.text := by
  rw [filter_laterPieces]
  split_ifs <;> simp_all [r.bare_header, r.bare_text, r.bare_finding]

theorem mem_map_bare_passing {first : Record} {rest : List Record} {y : Text} :
    y ∈ (passing (first :: rest)).map bare ↔ y ∈ (first.pieces.filter passes).map bare ∨
      ∃ r ∈ rest, y ∈ (r.laterPieces.filter passes).map bare := by
  simp only [passing, List.map_append, List.mem_append, List.map_flatMap, List.mem_flatMap]

theorem writtenRecords_passing (records : List Record) :
    writtenRecords (terminated ';' (passing records).eraseDups) =
      (passing records).eraseDups.map bare := by
  have hclean : ∀ x ∈ passing records, ';' ∉ x ∧ bare x ≠ [] := by
    intro x hx
    have hy := List.mem_map_of_mem (f := bare) hx
    cases records with
    | nil => simp [passing] at hx
    | cons first rest =>
        constructor
        · rcases List.mem_append.mp hx with hx | hx
          · exact Record.not_mem_pieces (List.mem_filter.mp hx).1
          · obtain ⟨r, -, hr⟩ := List.mem_flatMap.mp hx
            exact Record.not_mem_laterPieces (List.mem_filter.mp hr).1
        · rcases mem_map_bare_passing.mp hy with hy | ⟨r, -, hy⟩
          · rw [mem_map_bare_pieces] at hy
            split at hy
            · rcases hy with ⟨hy, -⟩ | ⟨hy, -⟩ <;> simp [hy, first.lines_ne_nil]
            · simp [hy, first.lines_ne_nil]
          · rw [mem_map_bare_laterPieces] at hy
            split at hy
            · rcases hy with ⟨hy, -⟩ | ⟨hy, -⟩ <;> simp [hy, r.lines_ne_nil]
            · simp [hy, r.lines_ne_nil]
  rw [writtenRecords, splitOn_terminated fun x hx => (hclean x (List.mem_eraseDups.mp hx)).1,
    List.map_append, List.filter_append, List.filter_eq_self.mpr]
  · simp [bare]
  · intro y hy
    obtain ⟨x, hx, rfl⟩ := List.mem_map.mp hy
    simpa using (hclean x (List.mem_eraseDups.mp hx)).2

theorem discarded_congr {r' : Record} (h : r.text = r'.text) :
    Discarded r r.text ↔ Discarded r' r'.text := by
  rw [Discarded, Discarded, h, Record.path_eq_of_text h]

theorem text_mem_passing {first : Record} {rest : List Record} :
    r.text ∈ (passing (first :: rest)).map bare ↔
      ¬ spectre <:+: r.header ∧ (r.text = first.text ∧ ¬ parentDir <:+: r.text ∨
        (∃ r' ∈ rest, r'.text = r.text) ∧ ¬ Discarded r r.text) := by
  rw [mem_map_bare_passing, mem_map_bare_pieces]
  simp only [mem_map_bare_laterPieces]
  constructor
  · rintro (h | ⟨r', hr', h⟩)
    · split at h
      · simp [r.text_ne_header, r.text_ne_finding] at h
      case isFalse hspectre =>
        rw [Record.header_eq_of_text h.1, h.1]
        exact ⟨hspectre, .inl ⟨rfl, h.2⟩⟩
    · split at h
      · simp [r.text_ne_header, r.text_ne_finding] at h
      case isFalse hspectre =>
        rw [Record.header_eq_of_text h.1, discarded_congr h.1]
        exact ⟨hspectre, .inr ⟨⟨r', hr', h.1.symm⟩, h.2⟩⟩
  · rintro ⟨hspectre, ⟨htext, hparent⟩ | ⟨⟨r', hr', htext⟩, hkept⟩⟩
    · rw [Record.header_eq_of_text htext] at hspectre
      rw [if_neg hspectre]
      exact .inl ⟨htext, htext ▸ hparent⟩
    · refine .inr ⟨r', hr', ?_⟩
      rw [← Record.header_eq_of_text htext] at hspectre
      rw [if_neg hspectre]
      exact ⟨htext.symm, (discarded_congr htext).not.mpr hkept⟩

/-! ## The exact condition -/

/-- Of the later records, the texts in scope pass that are not the first one's. -/
theorem flatMap_laterPieces {first : Record} {rest : List Record}
    (h : ∀ r ∈ rest, LaterKept first r) :
    rest.flatMap (fun r => r.laterPieces.filter passes) =
      (((rest.filter (InScope ·.path)).map (·.text)).filter (· ≠ first.text)).map
        ('\n' :: ·) := by
  induction rest with
  | nil => rfl
  | cons r rest ih =>
      obtain ⟨hr, hrest⟩ := List.forall_mem_cons.mp h
      rw [List.flatMap_cons, ih hrest, filter_laterPieces_of_laterKept hr]
      by_cases hscope : InScope r.path
      · by_cases htext : r.text = first.text <;> simp [hscope, htext]
      · simp [hscope]

theorem eraseDups_map_bare {xs : List Text} (h : ∀ x ∈ xs, ∃ r : Record, r.text = x) :
    (xs.map ('\n' :: ·)).eraseDups.map bare = xs.eraseDups := by
  have hinjective : Function.Injective ('\n' :: · : Text → Text) :=
    fun _ _ h => (List.cons.inj h).2
  have hsame : ∀ x ∈ xs.eraseDups, (bare ∘ ('\n' :: ·)) x = id x := by
    intro x hx
    obtain ⟨r, rfl⟩ := h x (List.mem_eraseDups.mp hx)
    exact r.bare_text.2
  rw [eraseDups_map hinjective, List.map_map, List.map_congr_left hsame, List.map_id]

theorem newline_text_ne (r : Record) (x : Text) : '\n' :: x ≠ r.text := by
  intro heq
  obtain ⟨_, htext⟩ := r.text_path
  exact Record.head_ne_newline (heq.trans htext) rfl

theorem KeepsScope.written {records : List Record} (h : KeepsScope records) :
    (passing records).eraseDups.map bare =
      ((records.filter (InScope ·.path)).map (·.text)).eraseDups := by
  cases records with
  | nil => simp [passing]
  | cons first rest =>
      obtain ⟨hfirst, hrest⟩ := h
      let texts := (rest.filter (InScope ·.path)).map (·.text)
      have htexts : ∀ x ∈ texts, ∃ r : Record, InScope r.path ∧ r.text = x := by
        intro x hx
        obtain ⟨r, hr, rfl⟩ := List.mem_map.mp hx
        exact ⟨r, by simpa using (List.mem_filter.mp hr).2, rfl⟩
      have hnewline : ∀ xs ⊆ texts, (xs.map ('\n' :: ·)).eraseDups.map bare = xs.eraseDups :=
        fun xs hxs => eraseDups_map_bare fun x hx =>
          (htexts x (hxs hx)).imp fun _ hr => hr.2
      rw [passing, filter_pieces_of_firstKept hfirst, flatMap_laterPieces hrest]
      by_cases hscope : InScope first.path
      · -- the copies behind it have a newline in front, so only the condition keeps them out
        have hfresh : ∀ x ∈ (((texts.filter (· ≠ first.text)).map ('\n' :: ·)).eraseDups),
            (!(x == first.text)) = true := by
          intro x hx
          obtain ⟨y, -, rfl⟩ := List.mem_map.mp (List.mem_eraseDups.mp hx)
          simpa using newline_text_ne first y
        rw [if_pos hscope, List.singleton_append, eraseDups_cons_eq,
          List.filter_eq_self.mpr hfresh, List.map_cons, first.bare_text.1,
          hnewline _ (List.filter_subset_self _), List.filter_cons_of_pos (by simpa using hscope),
          List.map_cons, eraseDups_cons_eq, eraseDups_filter]
        congr 2
        funext x
        by_cases hx : x = first.text <;> simp [hx]
      · have hnone : texts.filter (· ≠ first.text) = texts := by
          rw [List.filter_eq_self]
          intro x hx
          obtain ⟨r, hin, rfl⟩ := htexts x hx
          have hne : r.text ≠ first.text := fun h =>
            hscope (Record.path_eq_of_text h ▸ hin)
          simpa using hne
        rw [if_neg hscope, List.nil_append, hnone, hnewline texts (List.Subset.refl _),
          List.filter_cons_of_neg (by simpa using hscope)]

end

/-! ### Only the texts in scope are written -/

section

variable {first : Record} {rest : List Record}
  (hwritten : ∀ y, y ∈ (passing (first :: rest)).map bare ↔
    ∃ r ∈ first :: rest, InScope r.path ∧ r.text = y)

include hwritten

theorem text_mem_iff_inScope {r : Record} (hr : r ∈ first :: rest) :
    r.text ∈ (passing (first :: rest)).map bare ↔ InScope r.path := by
  rw [hwritten]
  constructor
  · rintro ⟨r', -, hin, htext⟩
    exact Record.path_eq_of_text htext ▸ hin
  · exact fun hin => ⟨r, hr, hin, rfl⟩

theorem lines_not_mem (r : Record) : r.header ∉ (passing (first :: rest)).map bare ∧
    r.finding ∉ (passing (first :: rest)).map bare := by
  simp only [hwritten]
  constructor
  · rintro ⟨r', -, -, htext⟩
    exact r'.text_ne_header r htext
  · rintro ⟨r', -, -, htext⟩
    exact r'.text_ne_finding r htext

theorem not_inScope_of_spectre {r : Record} (hr : r ∈ first :: rest)
    (hspectre : spectre <:+: r.header) : ¬ InScope r.path := fun hin =>
  (text_mem_passing.mp ((text_mem_iff_inScope hwritten hr).mpr hin)).1 hspectre

theorem firstKept_of_written : FirstKept first := by
  have hpieces : ∀ y, y ∈ (first.pieces.filter passes).map bare →
      y ∈ (passing (first :: rest)).map bare :=
    fun y hy => mem_map_bare_passing.mpr (.inl hy)
  simp only [mem_map_bare_pieces] at hpieces
  obtain ⟨hheader, hfinding⟩ := lines_not_mem hwritten first
  unfold FirstKept
  split
  case isTrue hsplit =>
    simp only [if_pos hsplit] at hpieces
    refine ⟨not_inScope_of_spectre hwritten (by simp) hsplit, ?_, ?_⟩ <;> by_contra hkept
    · exact hheader (hpieces _ (.inl ⟨rfl, hkept⟩))
    · exact hfinding (hpieces _ (.inr ⟨rfl, hkept⟩))
  case isFalse hsplit =>
    rw [← text_mem_iff_inScope hwritten (by simp), text_mem_passing]
    constructor
    · rintro ⟨-, ⟨-, hparent⟩ | ⟨-, hkept⟩⟩
      · exact hparent
      · exact fun hparent => hkept (.inl hparent)
    · exact fun hparent => ⟨hsplit, .inl ⟨rfl, hparent⟩⟩

omit hwritten in
/-- Without the newline, a later record that passes and the first one would be written twice. -/
theorem discarded_of_copy {r : Record} (hr : r ∈ rest) (hspectre : ¬ spectre <:+: r.header)
    (hnodup : ((passing (first :: rest)).eraseDups.map bare).Nodup)
    (htext : r.text = first.text) : Discarded r r.text := by
  by_contra hkept
  have hfront : first.text ∈ (passing (first :: rest)).eraseDups := by
    rw [Record.header_eq_of_text htext] at hspectre
    have hparent : ¬ parentDir <:+: first.text := fun hparent => hkept (.inl (htext ▸ hparent))
    rw [List.mem_eraseDups, passing, filter_pieces, if_neg hspectre, if_neg hparent]
    simp
  have hlater : '\n' :: r.text ∈ (passing (first :: rest)).eraseDups := by
    rw [List.mem_eraseDups, passing, List.mem_append, List.mem_flatMap]
    refine .inr ⟨r, hr, ?_⟩
    rw [filter_laterPieces, if_neg hspectre, if_neg hkept]
    simp
  exact newline_text_ne first r.text (List.inj_on_of_nodup_map hnodup hlater hfront
    (by rw [r.bare_text.2, first.bare_text.1, htext]))

theorem laterKept_of_written {r : Record} (hr : r ∈ rest)
    (hnodup : ((passing (first :: rest)).eraseDups.map bare).Nodup) : LaterKept first r := by
  have hpieces : ∀ y, y ∈ (r.laterPieces.filter passes).map bare →
      y ∈ (passing (first :: rest)).map bare :=
    fun y hy => mem_map_bare_passing.mpr (.inr ⟨r, hr, hy⟩)
  simp only [mem_map_bare_laterPieces] at hpieces
  obtain ⟨hheader, hfinding⟩ := lines_not_mem hwritten r
  have hin : r.text ∈ (passing (first :: rest)).map bare ↔ InScope r.path :=
    text_mem_iff_inScope hwritten (List.mem_cons_of_mem _ hr)
  unfold LaterKept
  split
  case isTrue hsplit =>
    simp only [if_pos hsplit] at hpieces
    refine ⟨not_inScope_of_spectre hwritten (List.mem_cons_of_mem _ hr) hsplit, ?_, ?_⟩ <;>
      by_contra hkept
    · exact hheader (hpieces _ (.inl ⟨rfl, hkept⟩))
    · exact hfinding (hpieces _ (.inr ⟨rfl, hkept⟩))
  case isFalse hsplit =>
    simp only [if_neg hsplit] at hpieces
    split
    case isTrue hscope =>
      rw [← discarded_of_inScope hscope]
      refine ⟨fun hdiscarded => ?_, discarded_of_copy hr hsplit hnodup⟩
      rcases (text_mem_passing.mp (hin.mpr hscope)).2 with ⟨htext, -⟩ | ⟨-, hkept⟩
      · exact htext
      · exact absurd hdiscarded hkept
    case isFalse hout =>
      by_contra hkept
      exact hout (hin.mp (hpieces _ ⟨rfl, hkept⟩))

end

theorem keepsScope_of_written {records : List Record}
    (h : (passing records).eraseDups.map bare =
      ((records.filter (InScope ·.path)).map (·.text)).eraseDups) : KeepsScope records := by
  cases records with
  | nil => trivial
  | cons first rest =>
      have hwritten : ∀ y, y ∈ (passing (first :: rest)).map bare ↔
          ∃ r ∈ first :: rest, InScope r.path ∧ r.text = y := by
        intro y
        have hy : y ∈ (passing (first :: rest)).eraseDups.map bare ↔
            y ∈ (passing (first :: rest)).map bare := by
          simp only [List.mem_map, List.mem_eraseDups]
        rw [← hy, h]
        simp [and_assoc]
      have hnodup : ((passing (first :: rest)).eraseDups.map bare).Nodup := h ▸ nodup_eraseDups _
      exact ⟨firstKept_of_written hwritten, fun r hr => laterKept_of_written hwritten hr hnodup⟩

/-- The filter ends and leaves exactly the records in scope in the output. -/
theorem filters_iff (report : Report) {args : Args} {files : Files}
    (hinput : files args.inputFile = some report.text)
    (hforce : (files args.outputFile).isSome → args.force = true) :
    (main args files).2 = .finished ∧ ∃ output,
      (main args files).1 args.outputFile = some output ∧
        (writtenRecords output = report.wanted ↔ KeepsScope report.records) := by
  obtain ⟨hfinished, houtput⟩ := main_eq hinput hforce
  refine ⟨hfinished, _, houtput, ?_⟩
  rw [filter_results, writtenRecords_passing, Report.wanted]
  constructor
  · exact keepsScope_of_written
  · exact KeepsScope.written

/-! ## A report that begins under `sound/` -/

def soundRecord : Record where
  path := "sound/core/init.c".toList
  line := "10".toList
  func := "snd_card_init".toList
  level := "warn".toList
  id := "142485164217511141".toList
  message := "'check_host_input' read from the host using function 'readl'".toList
  words := by decide +kernel
  idChars := by decide
  oneLine := by decide +kernel
  named := by decide +kernel
  path_ne_nil := by decide
  colon := by decide +kernel
  id_ne_nil := by decide
  unseparated := by decide +kernel

def pciRecord : Record where
  path := "drivers/pci/msi.c".toList
  line := "12".toList
  func := "msi_setup".toList
  level := "error".toList
  id := "7572505657557936".toList
  message := "'check_host_input' a tainted value from the host 'pos' used in function 'f'".toList
  words := by decide +kernel
  idChars := by decide
  oneLine := by decide +kernel
  named := by decide +kernel
  path_ne_nil := by decide
  colon := by decide +kernel
  id_ne_nil := by decide
  unseparated := by decide +kernel

def scopeWarning : Text := "mm/memory.c:4061 (null)() warn: internal.  problem with scope".toList

theorem filter_scopeWarning : ([scopeWarning].filter fun line => !noise line) = [] := by
  decide +kernel

/-- A finding under `sound/` stands in front of one in scope. -/
def soundReport : Report where
  lines := soundRecord.lines ++ [scopeWarning] ++ pciRecord.lines ++ [[]]
  records := [soundRecord, pciRecord]
  oneLine := by decide +kernel
  interleaved := by
    rw [List.filter_append, List.filter_append, List.filter_append, soundRecord.filter_lines,
      pciRecord.filter_lines, filter_scopeWarning]
    rfl

def filterArgs : Args := ⟨"smatch_warns.txt".toList, "smatch_warns.txt.filtered".toList, false⟩

def filterFiles (report : Report) : Files := fun name =>
  if name = filterArgs.inputFile then some report.text else none

theorem filters_iff_soundReport :
    (main filterArgs (filterFiles soundReport)).2 = .finished ∧ ∃ output,
      (main filterArgs (filterFiles soundReport)).1 filterArgs.outputFile = some output ∧
        (writtenRecords output = soundReport.wanted ↔ KeepsScope soundReport.records) :=
  filters_iff soundReport (if_pos rfl) (by decide +kernel)

theorem sound_in_front_written :
    (main filterArgs (filterFiles soundReport)).1 filterArgs.outputFile =
        some (soundRecord.text ++ ";\n".toList ++ pciRecord.text ++ [';']) ∧
      writtenRecords (soundRecord.text ++ ";\n".toList ++ pciRecord.text ++ [';']) ≠
        soundReport.wanted := by
  constructor <;> decide +kernel

end TdvfFuzz.AuditFilter
