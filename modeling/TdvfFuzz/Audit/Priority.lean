import TdvfFuzz.Audit.Annotation

/-!
# Verbatim copies, same-id records and fallbacks

The loop tests a record for a verbatim copy first, for the same id second and
for a fallback last, but it does so record by record.  The strongest match
wins exactly when it is also the first related record of the list.
-/

namespace TdvfFuzz.Audit

open TdvfFuzz.Foundation

/-! ## What makes a record related to a new one -/

/-- Path and function agree, and the old record carries some id. -/
def SamePlace (new : NewRecord) (a : Text) : Prop :=
  (resultId a).isSome ∧ pathAnalyzed a = new.pathNew ∧
    funcName a = .ok new.funcNameNew

def RenamedReader (new : NewRecord) (a : Text) : Prop :=
  nativeRead <:+: new.resultNew ∧ paravirtRead <:+: a

def analyzedVariable (a : Text) : Except PyError Text :=
  variableName "paravirt_read_msr'".toList a

def newVariable (n : Text) : Except PyError Text :=
  variableName "native_read_msr'".toList n

def FallbackAgrees (new : NewRecord) (a : Text) : Prop :=
  (RenamedReader new a → lineNum a = lineNum new.resultNew ∧
      analyzedVariable a = newVariable new.resultNew) ∧
    (¬ RenamedReader new a → statusAnalyzed a = "excluded".toList)

/-- The lookups that the tests on this record need do not raise. -/
def Readable (new : NewRecord) (a : Text) : Prop :=
  new.resultNew <:+: a ∨
    (((resultId a).isSome → 2 ≤ (a.splitOn ':').length →
        ∃ func, funcName a = .ok func) ∧
      (SamePlace new a → resultId a ≠ some new.resultIdNew → RenamedReader new a →
        (∃ v, analyzedVariable a = .ok v) ∧ ∃ v, newVariable new.resultNew = .ok v))

/-- A match by place: the id agrees or a fallback applies. -/
def WeakMatch (new : NewRecord) (a : Text) : Prop :=
  ¬ new.resultNew <:+: a ∧ SamePlace new a ∧
    (resultId a = some new.resultIdNew ∨ FallbackAgrees new a)

def Unrelated (new : NewRecord) (a : Text) : Prop :=
  ¬ new.resultNew <:+: a ∧ ¬ WeakMatch new a

/-! ## The tests in these terms -/

theorem lineNum_of_funcName {s func : Text} (h : funcName s = .ok func) :
    ∃ line, lineNum s = .ok line := by
  unfold funcName at h
  obtain ⟨location, hlocation, -⟩ := bind_eq_ok.mp h
  obtain ⟨first, rest, hsplit⟩ :=
    List.exists_cons_of_ne_nil (List.splitOn_ne_nil ' ' location)
  refine ⟨first, ?_⟩
  rw [lineNum, hlocation, bind_ok, item_eq_ok, hsplit]
  rfl

theorem two_le_of_funcName {s func : Text} (h : funcName s = .ok func) :
    2 ≤ (s.splitOn ':').length := by
  unfold funcName at h
  obtain ⟨location, hlocation, -⟩ := bind_eq_ok.mp h
  have := (List.getElem?_eq_some_iff.mp (item_eq_ok.mp hlocation)).1
  omega

theorem judge_of_samePlace {new : NewRecord} {a : Text}
    (hcontains : ¬ new.resultNew <:+: a) (hplace : SamePlace new a) :
    judge new a =
      if resultId a = some new.resultIdNew then .ok .sameId
      else judgeOtherId new a := by
  obtain ⟨hid, hpath, hfunc⟩ := hplace
  obtain ⟨id, hid⟩ := Option.isSome_iff_exists.mp hid
  have hnil : a ≠ [] := by
    rintro rfl
    simp at hid
  have hfields := two_le_of_funcName hfunc
  simp only [judge, hnil, hcontains, hid, if_false, hfunc, bind_ok, hpath, and_self,
    if_true, Option.some.injEq, Nat.not_lt.mpr hfields]
  split <;> simp_all

theorem judge_of_not_samePlace {new : NewRecord} {a : Text}
    (hcontains : ¬ new.resultNew <:+: a) (hplace : ¬ SamePlace new a)
    (hread : (resultId a).isSome → 2 ≤ (a.splitOn ':').length →
      ∃ func, funcName a = .ok func) :
    judge new a = .ok .next := by
  by_cases hnil : a = []
  · simp [judge, hnil]
  simp only [judge, hnil, hcontains, if_false]
  cases hid : resultId a with
  | none => rfl
  | some id =>
      simp only
      split
      case isTrue => rfl
      case isFalse hfields =>
        obtain ⟨func, hfunc⟩ := hread (by simp [hid]) (by omega)
        have hdiffers : ¬ (pathAnalyzed a = new.pathNew ∧ func = new.funcNameNew) :=
          fun h => hplace ⟨by simp [hid], h.1, by rw [hfunc, h.2]⟩
        simp [hfunc, hdiffers]

theorem judgeOtherId_eq {new : NewRecord} {a line line' : Text}
    (ha : lineNum a = .ok line) (hn : lineNum new.resultNew = .ok line')
    (hread : RenamedReader new a →
      (∃ v, analyzedVariable a = .ok v) ∧ ∃ v, newVariable new.resultNew = .ok v) :
    (FallbackAgrees new a → judgeOtherId new a = .ok .otherId) ∧
    (¬ FallbackAgrees new a → judgeOtherId new a = .ok .next) := by
  unfold judgeOtherId
  rw [ha, hn, bind_ok, bind_ok]
  by_cases hreader : RenamedReader new a
  · obtain ⟨⟨v, hv⟩, v', hv'⟩ := hread hreader
    simp only [FallbackAgrees, ha, hn, hv, hv', hreader, Except.ok.injEq]
    unfold RenamedReader at hreader
    unfold analyzedVariable at hv
    unfold newVariable at hv'
    rw [if_pos hreader, hv, hv', bind_ok, bind_ok]
    constructor <;> intro h <;> split <;> simp_all
  · simp only [FallbackAgrees, hreader]
    unfold RenamedReader at hreader
    rw [if_neg hreader]
    constructor <;> intro h <;> split <;> simp_all

theorem judge_of_weakMatch {n a : Text} {new : NewRecord}
    (hnew : newRecord n = .ok (some new)) (hread : Readable new a)
    (h : WeakMatch new a) :
    judge new a = .ok .sameId ∨ judge new a = .ok .otherId := by
  obtain ⟨hcontains, hplace, hmatch⟩ := h
  obtain ⟨hresult, -, hfunc, -⟩ := newRecord_ok hnew
  rw [judge_of_samePlace hcontains hplace]
  split
  case isTrue => exact .inl rfl
  case isFalse hid =>
    obtain ⟨line, hline⟩ := lineNum_of_funcName hplace.2.2
    obtain ⟨line', hline'⟩ := lineNum_of_funcName (hresult ▸ hfunc)
    exact .inr ((judgeOtherId_eq hline hline' ((hread.resolve_left hcontains).2 hplace hid)).1
      (hmatch.resolve_left hid))

theorem readable_of_judge {new : NewRecord} {a : Text} {v : Verdict}
    (h : judge new a = .ok v) : Readable new a := by
  by_cases hcontains : new.resultNew <:+: a
  · exact .inl hcontains
  refine .inr ⟨fun hid hfields => ?_, fun hplace hid hreader => ?_⟩
  · obtain ⟨id, hid⟩ := Option.isSome_iff_exists.mp hid
    have hnil : a ≠ [] := by
      rintro rfl
      simp at hid
    simp only [judge, hnil, hcontains, hid, if_false, Nat.not_lt.mpr hfields] at h
    obtain ⟨func, hfunc, -⟩ := bind_eq_ok.mp h
    exact ⟨func, hfunc⟩
  · rw [judge_of_samePlace hcontains hplace, if_neg hid, judgeOtherId] at h
    obtain ⟨line, -, h⟩ := bind_eq_ok.mp h
    obtain ⟨line', -, h⟩ := bind_eq_ok.mp h
    unfold RenamedReader at hreader
    rw [if_pos hreader] at h
    obtain ⟨v, hv, h⟩ := bind_eq_ok.mp h
    obtain ⟨v', hv', h⟩ := bind_eq_ok.mp h
    exact ⟨⟨v, hv⟩, v', hv'⟩

/-- The record is passed over exactly when it is unrelated and raises nothing. -/
theorem judge_eq_next {n a : Text} {new : NewRecord}
    (hnew : newRecord n = .ok (some new)) :
    judge new a = .ok .next ↔ Readable new a ∧ Unrelated new a := by
  obtain ⟨hresult, -, hfunc, hid⟩ := newRecord_ok hnew
  constructor
  · intro h
    have hread := readable_of_judge h
    refine ⟨hread, fun hcontains => ?_, fun hweak => ?_⟩
    · have hnil : a ≠ [] := by
        rintro rfl
        simp [← hresult, List.infix_nil.mp hcontains] at hid
      simp [judge_of_contains hnil hcontains] at h
    · rcases judge_of_weakMatch hnew hread hweak with hweak | hweak <;>
        simp [hweak] at h
  · rintro ⟨hread, hcontains, hweak⟩
    have hread := hread.resolve_left hcontains
    by_cases hplace : SamePlace new a
    · have hsame : resultId a ≠ some new.resultIdNew := fun h =>
        hweak ⟨hcontains, hplace, .inl h⟩
      have hfallback : ¬ FallbackAgrees new a := fun h =>
        hweak ⟨hcontains, hplace, .inr h⟩
      obtain ⟨line, hline⟩ := lineNum_of_funcName hplace.2.2
      obtain ⟨line', hline'⟩ := lineNum_of_funcName (hresult ▸ hfunc)
      rw [judge_of_samePlace hcontains hplace, if_neg hsame]
      exact (judgeOtherId_eq hline hline' (hread.2 hplace hsame)).2 hfallback
    · exact judge_of_not_samePlace hcontains hplace hread.1

/-! ## The first related record decides -/

/-- The first analyzed record that contains the new one or matches by place. -/
def FirstRelated (new : NewRecord) (resultListAnalyzed : List Text) (a : Text) :
    Prop :=
  ∃ before after, resultListAnalyzed = before ++ a :: after ∧
    (∀ x ∈ before, Readable new (strip x) ∧ Unrelated new (strip x)) ∧
    Readable new (strip a) ∧ ¬ Unrelated new (strip a)

theorem FirstRelated.mem {new : NewRecord} {resultListAnalyzed : List Text}
    {a : Text} (h : FirstRelated new resultListAnalyzed a) :
    a ∈ resultListAnalyzed := by
  obtain ⟨before, after, rfl, -⟩ := h
  simp

section

variable {resultListAnalyzed : List Text} {n a : Text} {new : NewRecord}

theorem Decides.firstRelated (hnew : newRecord n = .ok (some new)) {v : Verdict}
    (h : Decides new resultListAnalyzed a v) :
    FirstRelated new resultListAnalyzed a := by
  obtain ⟨before, after, hlist, hbefore, hjudge, hne⟩ := h
  refine ⟨before, after, hlist, fun x hx => (judge_eq_next hnew).mp (hbefore x hx),
    readable_of_judge hjudge, fun hunrelated => hne ?_⟩
  have hnext := (judge_eq_next hnew).mpr ⟨readable_of_judge hjudge, hunrelated⟩
  simpa [hjudge] using hnext

theorem FirstRelated.decides_verbatim (hnew : newRecord n = .ok (some new))
    (h : FirstRelated new resultListAnalyzed a) (hcontains : n <:+: strip a) :
    Decides new resultListAnalyzed a .verbatim := by
  obtain ⟨before, after, hlist, hbefore, -, -⟩ := h
  obtain ⟨rfl, -, -, hid⟩ := newRecord_ok hnew
  have hnil : strip a ≠ [] := by
    intro hnil
    rw [hnil, List.infix_nil] at hcontains
    simp [hcontains] at hid
  exact ⟨before, after, hlist, fun x hx => (judge_eq_next hnew).mpr (hbefore x hx),
    judge_of_contains hnil hcontains, by simp⟩

theorem FirstRelated.decides_weak (hnew : newRecord n = .ok (some new))
    (h : FirstRelated new resultListAnalyzed a) (hcontains : ¬ n <:+: strip a) :
    Decides new resultListAnalyzed a .sameId ∨
      Decides new resultListAnalyzed a .otherId := by
  obtain ⟨before, after, hlist, hbefore, hread, hrelated⟩ := h
  obtain ⟨rfl, -⟩ := newRecord_ok hnew
  have hweak : WeakMatch new (strip a) := by
    by_contra hweak
    exact hrelated ⟨hcontains, hweak⟩
  have hbefore := fun x hx => (judge_eq_next hnew).mpr (hbefore x hx)
  rcases judge_of_weakMatch hnew hread hweak with hjudge | hjudge
  · exact .inl ⟨before, after, hlist, hbefore, hjudge, by simp⟩
  · exact .inr ⟨before, after, hlist, hbefore, hjudge, by simp⟩

theorem transferRecord_of_decides (hnew : newRecord n = .ok (some new))
    {v : Verdict} {record : Text} (h : Decides new resultListAnalyzed a v)
    (hwritten : written new (strip a) v = some record) :
    transferRecord resultListAnalyzed n = .ok (some ⟨record, true⟩) := by
  have hfound := (findAnalyzed_eq_some new record resultListAnalyzed).mpr
    ⟨a, v, h, hwritten⟩
  rw [transferRecord_of_newRecord hnew, hfound]
  rfl

end

/-! ## The strongest match wins exactly when it comes first -/

def HasCopy (resultListAnalyzed : List Text) (n : Text) : Prop :=
  ∃ a ∈ resultListAnalyzed, IsCopy (strip a) n

/-- A copy is output as it stands; without one a same-id record gives the status. -/
structure StrongestWins (resultListAnalyzed : List Text) (n : Text) : Prop where
  copy : HasCopy resultListAnalyzed n →
    ∃ a ∈ resultListAnalyzed, IsCopy (strip a) n ∧
      transferRecord resultListAnalyzed n = .ok (some ⟨strip a, true⟩)
  sameId : ¬ HasCopy resultListAnalyzed n →
    ∀ new, newRecord n = .ok (some new) →
      (∃ a ∈ resultListAnalyzed, SameKey new (strip a)) →
      ∃ a v record, SameKey new (strip a) ∧ Decides new resultListAnalyzed a v ∧
        written new (strip a) v = some record ∧
        transferRecord resultListAnalyzed n = .ok (some ⟨record, true⟩)

/--
The first related record is as strong a match as the list has to offer, or it
only matches by place but has the status and the comment of some copy.
-/
structure StrongestFirst (resultListAnalyzed : List Text) (n : Text) : Prop where
  copy : HasCopy resultListAnalyzed n →
    ∃ new a, newRecord n = .ok (some new) ∧
      FirstRelated new resultListAnalyzed a ∧
      (IsCopy (strip a) n ∨ ¬ n <:+: strip a ∧ ∃ c ∈ resultListAnalyzed,
        strip c = annotate (statusAnalyzed (strip a)) (commentAnalyzed (strip a)) n)
  sameId : ¬ HasCopy resultListAnalyzed n →
    ∀ new, newRecord n = .ok (some new) →
      (∃ a ∈ resultListAnalyzed, SameKey new (strip a)) →
      ∃ a, SameKey new (strip a) ∧ FirstRelated new resultListAnalyzed a

theorem StrongestWins.strongestFirst {resultListAnalyzed : List Text} {n : Text}
    (h : StrongestWins resultListAnalyzed n) :
    StrongestFirst resultListAnalyzed n where
  copy hcopy := by
    obtain ⟨c, hc, hisCopy, hrecord⟩ := h.copy hcopy
    rcases transferRecord_ok hrecord with ⟨hnone, -⟩ |
      ⟨new, hnew, ⟨a, v, record, hdecides, hwritten, hout⟩ | ⟨-, hout⟩⟩
    · simp at hnone
    · obtain rfl : strip c = record := by simpa using hout
      obtain ⟨rfl, -⟩ := newRecord_ok hnew
      refine ⟨new, a, hnew, hdecides.firstRelated hnew, ?_⟩
      obtain ⟨-, -, -, -, hjudge, -⟩ := hdecides
      rcases judge_ok hjudge with rfl | ⟨rfl, -⟩ | ⟨rfl, hcontains, -⟩ |
        ⟨rfl, hcontains, -⟩ <;>
        simp only [written, reduceCtorEq, Option.some.injEq] at hwritten
      · exact .inl (hwritten ▸ hisCopy)
      · exact .inr ⟨hcontains, c, hc, hwritten.symm⟩
      · exact .inr ⟨hcontains, c, hc, hwritten.symm⟩
    · simp at hout
  sameId hcopy new hnew hkey := by
    obtain ⟨a, v, record, hsame, hdecides, -⟩ := h.sameId hcopy new hnew hkey
    exact ⟨a, hsame, hdecides.firstRelated hnew⟩

theorem StrongestFirst.strongestWins {resultListAnalyzed : List Text} {n : Text}
    (h : StrongestFirst resultListAnalyzed n) :
    StrongestWins resultListAnalyzed n where
  copy hcopy := by
    obtain ⟨new, a, hnew, hfirst, hisCopy | ⟨hcontains, c, hc, hrebuilt⟩⟩ :=
      h.copy hcopy
    · exact ⟨a, hfirst.mem, hisCopy, transferRecord_of_decides hnew
        (hfirst.decides_verbatim hnew hisCopy.contains) rfl⟩
    · have hisCopy : IsCopy (strip c) n := hrebuilt ▸ isCopy_annotate (strip a) n
      obtain ⟨hresult, -⟩ := newRecord_ok hnew
      refine ⟨c, hc, hisCopy, ?_⟩
      rcases hfirst.decides_weak hnew hcontains with hdecides | hdecides
      · exact transferRecord_of_decides hnew hdecides
          (by rw [written, hresult, hrebuilt])
      · exact transferRecord_of_decides hnew hdecides
          (by rw [written, hresult, hrebuilt])
  sameId hcopy new hnew hkey := by
    obtain ⟨a, hsame, hfirst⟩ := h.sameId hcopy new hnew hkey
    obtain ⟨v, hdecides⟩ : ∃ v, Decides new resultListAnalyzed a v := by
      by_cases hcontains : n <:+: strip a
      · exact ⟨_, hfirst.decides_verbatim hnew hcontains⟩
      · rcases hfirst.decides_weak hnew hcontains with h | h <;> exact ⟨_, h⟩
    have hne : v ≠ .next := by
      obtain ⟨-, -, -, -, -, hne⟩ := hdecides
      exact hne
    obtain ⟨record, hwritten⟩ :=
      Option.ne_none_iff_exists'.mp (mt written_eq_none.mp hne)
    exact ⟨a, v, record, hsame, hdecides, hwritten,
      transferRecord_of_decides hnew hdecides hwritten⟩

end TdvfFuzz.Audit
