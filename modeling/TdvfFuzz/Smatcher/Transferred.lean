import TdvfFuzz.Audit.Conservation
import TdvfFuzz.Smatcher.Blocks

/-!
# Reading back what the transfer writes

Every record that the transfer writes is a block: a reviewed record as it
stands, a new record as it stands, or a new record with the status and the
first comment of a reviewed one.
-/

namespace TdvfFuzz.Smatcher

open TdvfFuzz.Foundation

/-! ## Files in the shape of a report -/

/-- The function is a C identifier. -/
def Block.Named (block : Block) : Prop := ∀ c ∈ block.site.func, Audit.isIdChar c = true

instance : DecidablePred Block.Named := fun block =>
  inferInstanceAs (Decidable (∀ c ∈ block.site.func, Audit.isIdChar c = true))

def Shaped (record : Text) : Prop := ∃ block : Block, block.Named ∧ record = block.text

def ShapedFile (data : Text) : Prop :=
  ∀ piece ∈ data.splitOn ';', strip piece = [] ∨ Shaped (strip piece)

/-- Status, normalised `path:line` and function. -/
def Block.triple (block : Block) : Entry :=
  ⟨if block.status = [] then "unclassified".toList else block.status,
    normpath (stripBy (fun c => c == '.' || c == '/') (block.site.path ++ ':' :: block.site.line)),
    block.site.func⟩

theorem Block.entry_of_named {block : Block} (h : block.Named) :
    block.entry = some block.triple := by
  have hnull : block.site.func ≠ "(null)".toList := by
    intro hfunc
    have := h '(' (by rw [hfunc]; decide)
    exact absurd this (by decide)
  rw [entry, triple, if_neg hnull]
  split <;> rfl

/-! ## The fields of a block -/

section

variable {block : Block}

def Block.header (block : Block) : Text :=
  (if block.status = [] then [] else block.status ++ ['\t']) ++
    (block.site.text ++ ' ' :: block.rest)

theorem Block.text_eq (block : Block) : block.text = block.header ++ block.detail := rfl

theorem Block.newline_not_mem_header (block : Block) : '\n' ∉ block.header := by
  have hplace := (List.forall_mem_cons.mp block.oneLine_place).1.1
  have hstatus : '\n' ∉ block.status := fun h => by
    simpa [notSpace, isSpace] using block.status_words '\n' h
  unfold header
  split <;> simp_all

theorem Block.firstField_newline (block : Block) :
    firstField '\n' block.text = block.header := by
  rw [block.text_eq]
  cases hlines : block.lines with
  | nil =>
      have := List.splitOn_eq_singleton block.newline_not_mem_header
      simp [detail, hlines, firstField, this]
  | cons line lines =>
      have hdetail : block.detail =
          '\n' :: ('\t' :: line ++ lines.flatMap (['\n', '\t'] ++ ·)) := by
        simp [detail, hlines]
      rw [hdetail, firstField_append_sep _ block.newline_not_mem_header]

theorem Block.statusAnalyzed_text (block : Block) :
    Audit.statusAnalyzed block.text = block.status := by
  have hplace := (List.forall_mem_cons.mp block.oneLine_place).1.2
  simp only [Audit.statusAnalyzed, block.firstField_newline]
  by_cases hstatus : block.status = []
  · simp [header, hstatus, hplace]
  · have htab : '\t' ∉ block.status := fun h => by
      simpa [notSpace, isSpace] using block.status_words '\t' h
    have hheader : block.header =
        block.status ++ '\t' :: (block.site.text ++ ' ' :: block.rest) := by
      simp [header, hstatus]
    rw [hheader, if_pos (by simp), firstField_append_sep _ htab, strip_eq_self block.word]

theorem splitText_lines (first : Text) (lines : List Text) (hfirst : '\n' ∉ first)
    (hlines : ∀ line ∈ lines, '\n' ∉ line) :
    splitText Audit.newlineTab (first ++ lines.flatMap (['\n', '\t'] ++ ·)) = first :: lines := by
  rw [Audit.newlineTab]
  induction lines generalizing first with
  | nil => simpa using splitText_of_not_mem hfirst
  | cons line lines ih =>
      obtain ⟨hline, hlines⟩ := List.forall_mem_cons.mp hlines
      have htext : first ++ (line :: lines).flatMap (['\n', '\t'] ++ ·) =
          first ++ ['\n', '\t'] ++ (line ++ lines.flatMap (['\n', '\t'] ++ ·)) := by
        simp
      rw [htext, splitText_append_sep _ hfirst, ih line hline hlines]

theorem Block.comment_clean {comment : Text} (h : comment ∈ Audit.commentAnalyzed block.text) :
    '\n' ∉ comment ∧ '\t' ∉ comment := by
  obtain ⟨-, hlines⟩ := List.forall_mem_cons.mp block.oneLine
  have hsplit := splitText_lines block.header block.lines block.newline_not_mem_header
    fun line hline => (hlines line hline).1
  simp only [Audit.commentAnalyzed, block.text_eq, detail, hsplit] at h
  split at h
  case h_1 third rest heq =>
    obtain ⟨m, hm, rfl⟩ := List.mem_map.mp h
    have hthird : third ∈ block.lines := by
      rw [(List.cons.inj heq).2]
      simp
    have hinside := (Regex.infix_of_mem_findall hm).subset
    exact ⟨fun hc => (hlines third hthird).1 (hinside hc),
      fun hc => (hlines third hthird).2 (hinside hc)⟩
  case h_2 => simp at h

theorem tab_not_mem_pathAnalyzed (a : Text) : '\t' ∉ Audit.pathAnalyzed a := by
  intro h
  unfold Audit.pathAnalyzed at h
  dsimp only at h
  split at h
  case h_1 first second rest hsplit =>
    have hpiece : second ∈ (firstField ':' a).splitOn '\t' := by
      rw [hsplit]
      simp
    exact not_mem_of_mem_splitOn '\t' _ second hpiece (mem_of_mem_stripBy h)
  case h_2 hsplit =>
    have hmem := mem_of_mem_stripBy h
    obtain ⟨first, rest, hfields⟩ :=
      List.exists_cons_of_ne_nil (List.splitOn_ne_nil '\t' (firstField ':' a))
    cases rest with
    | nil =>
        have hjoin : ['\t'].intercalate ((firstField ':' a).splitOn '\t') = firstField ':' a :=
          List.intercalate_splitOn '\t'
        rw [hfields, List.intercalate_singleton] at hjoin
        rw [← hjoin] at hmem
        exact not_mem_of_mem_splitOn '\t' _ first (hfields ▸ List.mem_singleton_self first) hmem
    | cons second rest => exact hsplit first second rest hfields

theorem funcName_of_colon {pre rest func : Text} (hblank : ' ' ∉ pre) (hcolon : ':' ∈ pre) :
    Audit.funcName (pre ++ ':' :: rest) ≠ .ok func := by
  intro h
  obtain ⟨first, others, rfl, hfirst⟩ := List.eq_append_cons_of_mem hcolon
  obtain ⟨location, hlocation, hfunc⟩ := bind_eq_ok.mp h
  have hfield : location = firstField ':' (others ++ ':' :: rest) := by
    rw [item_eq_ok, List.append_assoc, List.cons_append, splitOn_append_sep ':' first _ hfirst,
      List.getElem?_cons_succ] at hlocation
    rw [firstField, List.headD_eq_head?_getD, List.head?_eq_getElem?, hlocation]
    rfl
  have hnone : ' ' ∉ location := fun hmem =>
    hblank (List.mem_append_right _ (List.mem_cons_of_mem _
      (mem_of_mem_firstField_append (hfield ▸ hmem))))
  rw [item_eq_ok, List.splitOn_eq_singleton hnone] at hfunc
  simp at hfunc

theorem Block.tab_mem_path (hstatus : block.status ≠ []) {func : Text}
    (h : Audit.funcName block.text = .ok func) : '\t' ∈ strip (firstField ':' block.text) := by
  have hpath : ∀ c ∈ block.site.path, isSpace c = false := fun c hc =>
    block.site.words c (List.mem_append_left _ hc)
  have hblank : ' ' ∉ block.status ++ '\t' :: block.site.path := by
    intro hmem
    rcases List.mem_append.mp hmem with hmem | hmem
    · exact absurd (block.word ' ' hmem) (by decide)
    · rcases List.mem_cons.mp hmem with hmem | hmem
      · simp at hmem
      · exact absurd (hpath ' ' hmem) (by decide)
  have htext : ∃ rest, block.text =
      (block.status ++ '\t' :: block.site.path) ++ ':' :: rest :=
    ⟨block.site.line ++ ' ' :: (block.site.func ++ ['(', ')']) ++ ' ' :: block.rest ++
      block.detail, by simp [text, hstatus, Site.text, Site.location]⟩
  obtain ⟨rest, htext⟩ := htext
  rw [htext] at h ⊢
  have hcolon : ':' ∉ block.status ++ '\t' :: block.site.path := fun hcolon =>
    funcName_of_colon hblank hcolon h
  rw [firstField_append_sep rest hcolon]
  obtain ⟨c, status, hfirst⟩ := List.exists_cons_of_ne_nil hstatus
  obtain ⟨path, d, hlast⟩ := (List.eq_nil_or_concat block.site.path).resolve_left
    block.site.path_ne_nil
  have hends : block.status ++ '\t' :: block.site.path =
      c :: ((status ++ '\t' :: path) ++ [d]) := by
    simp [hfirst, hlast]
  rw [hends, strip_of_ends _ (block.word c (by simp [hfirst])) (hpath d (by simp [hlast]))]
  simp

end

/-! ## What is written -/

section

variable {dataAnalyzed dataNew : Text}

/-- The place decides whether another record's review is carried over. -/
theorem samePath_of_judge {new : Audit.NewRecord} {a : Text} {v : Audit.Verdict}
    (h : Audit.judge new a = .ok v) (hv : v = .sameId ∨ v = .otherId) :
    Audit.pathAnalyzed a = new.pathNew := by
  by_contra hpath
  have hnext : v ≠ .next ∧ v ≠ .verbatim := by rcases hv with rfl | rfl <;> simp
  unfold Audit.judge at h
  split at h
  · exact hnext.1 (Except.ok.inj h).symm
  · split at h
    · exact hnext.2 (Except.ok.inj h).symm
    · split at h
      · exact hnext.1 (Except.ok.inj h).symm
      · split at h
        · exact hnext.1 (Except.ok.inj h).symm
        · obtain ⟨func, -, h⟩ := bind_eq_ok.mp h
          rw [if_neg fun hkey => hpath hkey.1] at h
          exact hnext.1 (Except.ok.inj h).symm

theorem Block.annotated (block : Block) (hbare : block.status = []) {status : Text}
    {comments : List Text} (hstatus : ∀ c ∈ status, isSpace c = false)
    (hcomments : ∀ comment ∈ comments, '\n' ∉ comment ∧ '\t' ∉ comment) (hnamed : block.Named) :
    Shaped (Audit.annotate status comments block.text) := by
  have hlines : ∀ line ∈ block.rest :: (block.lines ++ comments.head?.toList),
      '\n' ∉ line ∧ '\t' ∉ line := by
    intro line hline
    rw [← List.cons_append, List.mem_append] at hline
    rcases hline with hline | hline
    · exact block.oneLine line hline
    · apply hcomments line
      exact List.mem_of_mem_head? (by simpa using hline)
  refine ⟨⟨status, block.site, block.rest, block.lines ++ comments.head?.toList, hstatus, hlines⟩,
    hnamed, ?_⟩
  have hhead : (if status = [] then block.text else status ++ '\t' :: block.text) =
      (if status = [] then [] else status ++ ['\t']) ++
        (block.site.text ++ ' ' :: block.rest) ++ block.detail := by
    split <;> simp [text, hbare]
  unfold Audit.annotate
  rw [hhead]
  cases comments <;> simp [text, detail, Audit.newlineTab]

theorem shaped_of_transferRecord (hanalyzed : ShapedFile dataAnalyzed) {n : Text} {found : Bool}
    {record : Text} (hn : Shaped n)
    (h : Audit.transferRecord (dataAnalyzed.splitOn ';') n = .ok (some ⟨record, found⟩)) :
    Shaped record := by
  rcases Audit.transferRecord_ok h with ⟨hnone, -⟩ | ⟨new, hnew, hcases⟩
  · simp at hnone
  · obtain ⟨hresult, hpath, hfunc, -⟩ := Audit.newRecord_ok hnew
    rcases hcases with ⟨a, v, record', hdecides, hwritten, hout⟩ | ⟨-, hout⟩
    · obtain ⟨rfl, -⟩ : record = record' ∧ found = true := by simpa using hout
      have hmem := hdecides.mem
      obtain ⟨before, after, -, -, hjudge, hne⟩ := hdecides
      have ha : Shaped (strip a) := by
        refine (hanalyzed a hmem).resolve_left fun hnil => hne ?_
        simpa [Audit.judge, hnil] using hjudge.symm
      have hrebuilt : v = .sameId ∨ v = .otherId → Shaped (Audit.annotate
          (Audit.statusAnalyzed (strip a)) (Audit.commentAnalyzed (strip a)) n) := by
        intro hv
        obtain ⟨old, -, hold⟩ := ha
        obtain ⟨block, hnamed, rfl⟩ := hn
        have hsame := samePath_of_judge hjudge hv
        have hbare : block.status = [] := by
          by_contra hstatus
          apply tab_not_mem_pathAnalyzed (strip a)
          rw [hsame, hpath]
          exact block.tab_mem_path hstatus hfunc
        rw [hold, old.statusAnalyzed_text]
        exact block.annotated hbare old.word (fun comment => old.comment_clean) hnamed
      cases v with
      | next => exact absurd rfl hne
      | verbatim =>
          obtain rfl : strip a = record := by simpa [Audit.written] using hwritten
          exact ha
      | sameId =>
          obtain rfl := Option.some.inj hwritten
          exact hresult ▸ hrebuilt (.inl rfl)
      | otherId =>
          obtain rfl := Option.some.inj hwritten
          exact hresult ▸ hrebuilt (.inr rfl)
    · obtain ⟨rfl, -⟩ : record = n ∧ found = false := by simpa using hout
      exact hn

theorem transferAll_records {t : Bool} {list : List Text} (news : List Text)
    {start final : Audit.Outputs} {error : Option PyError}
    (h : Audit.transferAll t list news start = (final, error)) :
    ∃ records : List Text,
      final.analyzed = start.analyzed ++ records.flatMap (· ++ Audit.terminator) ∧
      ∀ record ∈ records, ∃ n ∈ news, ∃ found,
        Audit.transferRecord list (strip n) = .ok (some ⟨record, found⟩) := by
  induction news generalizing start with
  | nil =>
      obtain ⟨rfl, -⟩ := Prod.mk.inj h
      exact ⟨[], by simp, by simp⟩
  | cons n news ih =>
      simp only [Audit.transferAll] at h
      split at h
      case h_1 =>
        obtain ⟨rfl, -⟩ := Prod.mk.inj h
        exact ⟨[], by simp, by simp⟩
      case h_2 =>
        obtain ⟨records, hfinal, hrecords⟩ := ih h
        refine ⟨records, hfinal, fun record hrecord => ?_⟩
        obtain ⟨n', hn', hwritten⟩ := hrecords record hrecord
        exact ⟨n', List.mem_cons_of_mem n hn', hwritten⟩
      case h_3 transferred hwritten =>
        obtain ⟨records, hfinal, hrecords⟩ := ih h
        refine ⟨transferred.record :: records, ?_, ?_⟩
        · simp [hfinal, Audit.Outputs.write]
        · rw [List.forall_mem_cons]
          refine ⟨⟨n, by simp, transferred.found, hwritten⟩, fun record hrecord => ?_⟩
          obtain ⟨n', hn', hwritten'⟩ := hrecords record hrecord
          exact ⟨n', List.mem_cons_of_mem n hn', hwritten'⟩

theorem exists_blocks {records : List Text} (h : ∀ record ∈ records, Shaped record) :
    ∃ blocks : List Block, records = blocks.map Block.text ∧ ∀ block ∈ blocks, block.Named := by
  induction records with
  | nil => exact ⟨[], rfl, by simp⟩
  | cons record records ih =>
      obtain ⟨⟨block, hnamed, rfl⟩, hrest⟩ := List.forall_mem_cons.mp h
      obtain ⟨blocks, rfl, hblocks⟩ := ih hrest
      exact ⟨block :: blocks, rfl, List.forall_mem_cons.mpr ⟨hnamed, hblocks⟩⟩

/--
The records of the output are blocks without a `;`, and the reader finds
their triples and no others.
-/
theorem transferred_read_back {args : Audit.Args} {files : Files}
    (hanalyzed : files args.inputAnalyzed = some dataAnalyzed)
    (hnew : files args.inputNew = some dataNew)
    (hforce : (files args.outputFile).isSome → args.force = true)
    (hshapedAnalyzed : ShapedFile dataAnalyzed) (hshapedNew : ShapedFile dataNew) :
    ∃ (blocks : List Block) (output : Text),
      (Audit.main args files).1 args.outputFile = some output ∧
      output = blocks.flatMap (·.text ++ Audit.terminator) ∧
      (∀ block ∈ blocks, block.Named ∧ ';' ∉ block.text) ∧
      parseSmatch output = (blocks.map Block.triple).toFinset := by
  cases hall : Audit.transferAll args.t (dataAnalyzed.splitOn ';') (dataNew.splitOn ';') {} with
  | mk outputs error =>
      obtain ⟨houtput, -⟩ := Audit.main_eq hanalyzed hnew hforce hall
      obtain ⟨records, hfinal, hrecords⟩ := transferAll_records _ hall
      have hshaped : ∀ record ∈ records, Shaped record ∧ ';' ∉ record := by
        intro record hrecord
        obtain ⟨n, hn, found, htransferred⟩ := hrecords record hrecord
        have hne : strip n ≠ [] := by
          intro hnil
          simp [Audit.transferRecord, hnil] at htransferred
        constructor
        · exact shaped_of_transferRecord hshapedAnalyzed ((hshapedNew n hn).resolve_left hne)
            htransferred
        · have hcarries := Audit.transferRecord_carries
            (fun a ha => not_mem_of_mem_splitOn ';' dataAnalyzed a ha)
            (fun hc => not_mem_of_mem_splitOn ';' dataNew n hn (mem_of_mem_stripBy hc)) htransferred
          exact hcarries.2
      obtain ⟨blocks, rfl, hnamed⟩ := exists_blocks fun record hrecord => (hshaped record hrecord).1
      have hreport : outputs.analyzed = reportText [';'] blocks := by
        rw [hfinal, List.flatMap_map]
        simp [reportText, Audit.terminator]
      have htext : reportText [';'] blocks = blocks.flatMap (·.text ++ Audit.terminator) := by
        simp [reportText, Audit.terminator]
      refine ⟨blocks, outputs.analyzed, houtput, hreport.trans htext, fun block hblock =>
        ⟨hnamed block hblock, (hshaped _ (List.mem_map_of_mem hblock)).2⟩, ?_⟩
      have hentries : blocks.filterMap Block.entry = blocks.map Block.triple := by
        rw [List.filterMap_congr fun block hblock => Block.entry_of_named (hnamed block hblock),
          List.filterMap_eq_map']
      rw [hreport, parseSmatch_reportText (by simp), hentries]

end

def sampleSite (line : Text) (hne : line ≠ []) (hdigits : ∀ c ∈ line, isDecimal c = true) :
    Site where
  path := "a.c".toList
  line := line
  func := "f".toList
  path_ne_nil := by decide
  line_ne_nil := hne
  func_ne_nil := by decide
  words := by decide
  digits := hdigits
  noCall := by decide

theorem sampleLine_ne_nil : "10".toList ≠ [] := by decide

def reviewedBlock : Block where
  status := "safe".toList
  site := sampleSite "10".toList sampleLine_ne_nil (by decide)
  rest := "warn: \x7b1\x7d".toList
  lines := ["check_host_input read".toList, "[no impact]".toList]
  word := by decide
  oneLine := by decide +kernel

def movedBlock : Block where
  status := []
  site := sampleSite "12".toList (by decide) (by decide)
  rest := "warn: \x7b1\x7d".toList
  lines := ["check_host_input read".toList]
  word := by decide
  oneLine := by decide +kernel

def transferArgs : Audit.Args := ⟨"old".toList, "new".toList, "out".toList, false, false⟩

def transferFiles : Files := fun name =>
  if name = "old".toList then some (reviewedBlock.text ++ [';'])
  else if name = "new".toList then some (movedBlock.text ++ [';']) else none

theorem shapedFile_of_block (block : Block) (hnamed : block.Named)
    (hsplit : (block.text ++ [';']).splitOn ';' = [block.text, []])
    (hstrip : strip block.text = block.text) : ShapedFile (block.text ++ [';']) := by
  intro piece hpiece
  rw [hsplit] at hpiece
  rcases List.mem_pair.mp hpiece with rfl | rfl
  · exact .inr ⟨block, hnamed, hstrip⟩
  · exact .inl rfl

theorem transferred_read_back_moved :
    ∃ (blocks : List Block) (output : Text),
      (Audit.main transferArgs transferFiles).1 "out".toList = some output ∧
      output = blocks.flatMap (·.text ++ Audit.terminator) ∧
      (∀ block ∈ blocks, block.Named ∧ ';' ∉ block.text) ∧
      parseSmatch output = (blocks.map Block.triple).toFinset :=
  @transferred_read_back _ _ transferArgs transferFiles rfl rfl (by decide +kernel)
    (shapedFile_of_block reviewedBlock (by decide +kernel) (by decide +kernel) (by decide +kernel))
    (shapedFile_of_block movedBlock (by decide +kernel) (by decide +kernel) (by decide +kernel))

end TdvfFuzz.Smatcher
