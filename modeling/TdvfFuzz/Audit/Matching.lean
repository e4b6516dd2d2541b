import Mathlib.Data.List.Forall2
import TdvfFuzz.Audit.Transfer

/-!
# Which analyzed record decides

The inner loop is a first-match search: its result is that of the first record
on which the tests do not continue.
-/

namespace TdvfFuzz.Audit

open TdvfFuzz.Foundation

/-! ## The first record that is not passed over -/

/-- `resultAnalyzed` ends the loop with the given verdict. -/
def Decides (new : NewRecord) (resultListAnalyzed : List Text)
    (resultAnalyzed : Text) (verdict : Verdict) : Prop :=
  ∃ before after, resultListAnalyzed = before ++ resultAnalyzed :: after ∧
    (∀ x ∈ before, judge new (strip x) = .ok .next) ∧
    judge new (strip resultAnalyzed) = .ok verdict ∧ verdict ≠ .next

theorem Decides.mem {new : NewRecord} {resultListAnalyzed : List Text}
    {resultAnalyzed : Text} {verdict : Verdict}
    (h : Decides new resultListAnalyzed resultAnalyzed verdict) :
    resultAnalyzed ∈ resultListAnalyzed := by
  obtain ⟨before, after, rfl, -⟩ := h
  simp

theorem not_decides_nil {new : NewRecord} {a : Text} {v : Verdict} :
    ¬ Decides new [] a v := by
  simp [Decides]

theorem decides_cons {new : NewRecord} {x a : Text} {rest : List Text} {v : Verdict} :
    Decides new (x :: rest) a v ↔
      (x = a ∧ judge new (strip x) = .ok v ∧ v ≠ .next) ∨
        (judge new (strip x) = .ok .next ∧ Decides new rest a v) := by
  constructor
  · rintro ⟨before, after, hlist, hbefore, hjudge, hne⟩
    cases before with
    | nil =>
        obtain ⟨rfl, -⟩ := List.cons.inj hlist
        exact .inl ⟨rfl, hjudge, hne⟩
    | cons y before =>
        obtain ⟨rfl, rfl⟩ := List.cons.inj hlist
        exact .inr ⟨hbefore x (by simp), before, after, rfl,
          fun z hz => hbefore z (by simp [hz]), hjudge, hne⟩
  · rintro (⟨rfl, hjudge, hne⟩ | ⟨hx, before, after, rfl, hbefore, hjudge, hne⟩)
    · exact ⟨[], rest, rfl, by simp, hjudge, hne⟩
    · exact ⟨x :: before, after, rfl, by simpa [hx] using hbefore, hjudge, hne⟩

theorem written_eq_none {new : NewRecord} {resultAnalyzed : Text}
    {verdict : Verdict} :
    written new resultAnalyzed verdict = none ↔ verdict = .next := by
  cases verdict <;> simp [written]

/-- A record is found exactly when some record decides, and it is written from it. -/
theorem findAnalyzed_eq_some (new : NewRecord) (record : Text) :
    ∀ (resultListAnalyzed : List Text),
      findAnalyzed new resultListAnalyzed = .ok (some record) ↔
        ∃ a v, Decides new resultListAnalyzed a v ∧
          written new (strip a) v = some record
  | [] => by simp [findAnalyzed, not_decides_nil]
  | a :: rest => by
      have ih := findAnalyzed_eq_some new record rest
      simp only [findAnalyzed, decides_cons]
      cases hjudge : judge new (strip a) with
      | error e => simp
      | ok verdict =>
          simp only [bind_ok]
          cases hwritten : written new (strip a) verdict with
          | none =>
              -- the head is passed over: the rest of the list answers
              obtain rfl := written_eq_none.mp hwritten
              simp only [ih, Except.ok.injEq]
              constructor
              · rintro ⟨b, v, hb, hrecord⟩
                exact ⟨b, v, .inr ⟨trivial, hb⟩, hrecord⟩
              · rintro ⟨b, v, ⟨-, rfl, hne⟩ | ⟨-, hb⟩, hrecord⟩
                · exact absurd rfl hne
                · exact ⟨b, v, hb, hrecord⟩
          | some first =>
              have hne : verdict ≠ .next := by
                rintro rfl
                simp [written] at hwritten
              simp only [Except.ok.injEq, Option.some.injEq]
              constructor
              · rintro rfl
                exact ⟨a, verdict, .inl ⟨rfl, rfl, hne⟩, hwritten⟩
              · rintro ⟨b, v, ⟨rfl, rfl, -⟩ | ⟨hnext, -⟩, hrecord⟩
                · simpa [hwritten] using hrecord
                · exact absurd hnext hne

theorem findAnalyzed_eq_none (new : NewRecord) :
    ∀ (resultListAnalyzed : List Text),
      findAnalyzed new resultListAnalyzed = .ok none ↔
        ∀ a ∈ resultListAnalyzed, judge new (strip a) = .ok .next
  | [] => by simp [findAnalyzed]
  | a :: rest => by
      have ih := findAnalyzed_eq_none new rest
      simp only [findAnalyzed, List.forall_mem_cons]
      cases hjudge : judge new (strip a) with
      | error e => simp
      | ok verdict =>
          simp only [bind_ok]
          cases hwritten : written new (strip a) verdict with
          | none =>
              obtain rfl := written_eq_none.mp hwritten
              simp [ih]
          | some first =>
              have hne : verdict ≠ .next := by
                rintro rfl
                simp [written] at hwritten
              simp [hne]

/-! ## What the tests establish -/

/-- `pathAnalyzed`, function and id of the old record are those of the new one. -/
def SameKey (new : NewRecord) (resultAnalyzed : Text) : Prop :=
  pathAnalyzed resultAnalyzed = new.pathNew ∧
    funcName resultAnalyzed = .ok new.funcNameNew ∧
    resultId resultAnalyzed = some new.resultIdNew

theorem judgeOtherId_ok {new : NewRecord} {a : Text} {v : Verdict}
    (h : judgeOtherId new a = .ok v) : v = .next ∨ v = .otherId := by
  unfold judgeOtherId at h
  obtain ⟨lineNumAnalyzed, -, h⟩ := bind_eq_ok.mp h
  obtain ⟨lineNumNew, -, h⟩ := bind_eq_ok.mp h
  split at h
  · obtain ⟨varAnalyzed, -, h⟩ := bind_eq_ok.mp h
    obtain ⟨varNew, -, h⟩ := bind_eq_ok.mp h
    split at h
    · exact .inl (Except.ok.inj h).symm
    · exact .inr (Except.ok.inj h).symm
  · split at h
    · exact .inl (Except.ok.inj h).symm
    · exact .inr (Except.ok.inj h).symm

/-- The verdicts other than `next`, each with the tests that led to it. -/
theorem judge_ok {new : NewRecord} {a : Text} {v : Verdict}
    (h : judge new a = .ok v) :
    v = .next ∨
    (v = .verbatim ∧ a ≠ [] ∧ new.resultNew <:+: a) ∨
    (v = .sameId ∧ ¬ new.resultNew <:+: a ∧ SameKey new a) ∨
    (v = .otherId ∧ ¬ new.resultNew <:+: a ∧
      resultId a ≠ some new.resultIdNew) := by
  unfold judge at h
  by_cases hnil : a = []
  · simp [hnil] at h
    exact .inl h.symm
  by_cases hcontains : new.resultNew <:+: a
  · simp [hnil, hcontains] at h
    exact .inr (.inl ⟨h.symm, hnil, hcontains⟩)
  simp only [hnil, hcontains, if_false] at h
  cases hid : resultId a with
  | none =>
      simp [hid] at h
      exact .inl h.symm
  | some resultIdAnalyzed =>
      simp only [hid] at h
      split at h
      · simp only [Except.ok.injEq] at h
        exact .inl h.symm
      · obtain ⟨funcNameAnalyzed, hfunc, h⟩ := bind_eq_ok.mp h
        split at h
        case isFalse =>
          simp only [Except.ok.injEq] at h
          exact .inl h.symm
        case isTrue hkey =>
          split at h
          case isTrue hne =>
            rcases judgeOtherId_ok h with rfl | rfl
            · exact .inl rfl
            · exact .inr (.inr (.inr ⟨rfl, hcontains, by simpa using hne⟩))
          case isFalse heq =>
            simp only [Except.ok.injEq] at h
            refine .inr (.inr (.inl ⟨h.symm, hcontains, hkey.1, ?_, ?_⟩))
            · rw [hfunc, hkey.2]
            · rw [hid, not_not.mp heq]

theorem judge_of_contains {new : NewRecord} {a : Text} (hnil : a ≠ [])
    (h : new.resultNew <:+: a) : judge new a = .ok .verbatim := by
  simp [judge, hnil, h]

/-! ## What is written -/

theorem not_mem_statusAnalyzed {a : Text} :
    '\t' ∉ statusAnalyzed a ∧ '\n' ∉ statusAnalyzed a := by
  simp only [statusAnalyzed]
  split
  case isFalse => simp
  case isTrue =>
    constructor
    · exact fun h => not_mem_firstField '\t' _ (mem_of_mem_stripBy h)
    · intro h
      have := mem_of_mem_firstField (mem_of_mem_stripBy h)
      exact not_mem_firstField '\n' _ this

theorem mem_of_mem_statusAnalyzed {a : Text} {c : Char}
    (h : c ∈ statusAnalyzed a) : c ∈ a := by
  simp only [statusAnalyzed] at h
  split at h
  case isTrue =>
    exact mem_of_mem_firstField (mem_of_mem_firstField (mem_of_mem_stripBy h))
  case isFalse => simp at h

theorem mem_of_mem_commentAnalyzed {a comment : Text} {c : Char}
    (hcomment : comment ∈ commentAnalyzed a) (hc : c ∈ comment) : c ∈ a := by
  unfold commentAnalyzed at hcomment
  split at hcomment
  case h_1 first second third rest hsplit =>
    obtain ⟨m, hm, rfl⟩ := List.mem_map.mp hcomment
    have hthird : c ∈ third := (Regex.infix_of_mem_findall hm).subset hc
    have hpiece : third ∈ splitText newlineTab a := by simp [hsplit]
    exact mem_of_mem_splitAtText _ 0 a hpiece hthird
  case h_2 => simp at hcomment

theorem infix_annotate (status : Text) (comments : List Text) (n : Text) :
    n <:+: annotate status comments n := by
  unfold annotate
  split
  · exact ⟨[], _, rfl⟩
  · exact ⟨status ++ ['\t'], _, by rw [List.append_assoc _ ['\t']]; rfl⟩

theorem not_mem_annotate {status n : Text} {comments : List Text} {c : Char}
    (hstatus : c ∉ status) (hn : c ∉ n) (hcomments : ∀ x ∈ comments, c ∉ x)
    (htab : c ≠ '\t') (hnewline : c ≠ '\n') :
    c ∉ annotate status comments n := by
  unfold annotate
  rw [List.mem_append, not_or]
  constructor
  · split <;> simp_all
  · cases comments with
    | nil => simp
    | cons x comments =>
        have := hcomments x (by simp)
        simp_all [newlineTab]

/-- Whatever is written contains the new record and brings in no separator. -/
theorem written_carries {new : NewRecord} {a record : Text} {v : Verdict}
    (hjudge : judge new a = .ok v) (hwritten : written new a v = some record)
    (ha : ';' ∉ a) (hn : ';' ∉ new.resultNew) :
    new.resultNew <:+: record ∧ ';' ∉ record := by
  have hannotate : new.resultNew <:+:
        annotate (statusAnalyzed a) (commentAnalyzed a) new.resultNew ∧
      ';' ∉ annotate (statusAnalyzed a) (commentAnalyzed a) new.resultNew :=
    ⟨infix_annotate _ _ _,
      not_mem_annotate (fun h => ha (mem_of_mem_statusAnalyzed h)) hn
        (fun x hx hc => ha (mem_of_mem_commentAnalyzed hx hc))
        (by decide) (by decide)⟩
  rcases judge_ok hjudge with rfl | ⟨rfl, -, hcontains⟩ | ⟨rfl, -⟩ | ⟨rfl, -⟩ <;>
    simp only [written, reduceCtorEq, Option.some.injEq] at hwritten
  · exact hwritten ▸ ⟨hcontains, ha⟩
  · exact hwritten ▸ hannotate
  · exact hwritten ▸ hannotate

end TdvfFuzz.Audit
