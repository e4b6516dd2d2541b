import TdvfFuzz.Smatcher.Matcher

/-!
# Keys of locations

What `strip('./')` and `os.path.normpath` do to a text whose pieces between
slashes are proper names.
-/

namespace TdvfFuzz.Smatcher

open TdvfFuzz.Foundation

/-- A piece that `normpath` neither drops nor resolves. -/
def ProperPiece (piece : Text) : Prop :=
  piece ≠ [] ∧ piece ≠ ['.'] ∧ piece ≠ ['.', '.']

theorem properPiece_append_colon (c t : Text) : ProperPiece (c ++ ':' :: t) := by
  have hmem : ':' ∈ c ++ ':' :: t := by simp
  refine ⟨by simp, fun h => ?_, fun h => ?_⟩ <;> simp [h] at hmem

theorem pushPiece_proper (absolute : Bool) (stack : List Text) {piece : Text}
    (h : ProperPiece piece) : pushPiece absolute stack piece = piece :: stack := by
  obtain ⟨hnil, hdot, hdots⟩ := h
  simp [pushPiece, hnil, hdot, hdots]

theorem foldl_pushPiece_proper (absolute : Bool) (pieces stack : List Text)
    (h : ∀ piece ∈ pieces, ProperPiece piece) :
    pieces.foldl (pushPiece absolute) stack = pieces.reverse ++ stack := by
  induction pieces generalizing stack with
  | nil => rfl
  | cons piece pieces ih =>
      rw [List.foldl_cons, pushPiece_proper _ _ (h piece (by simp)),
        ih _ fun x hx => h x (by simp [hx])]
      simp

theorem initialSlashes_of_proper {path : Text}
    (h : ∀ piece ∈ path.splitOn '/', ProperPiece piece) : initialSlashes path = [] := by
  cases path with
  | nil => rfl
  | cons c path =>
      have hc : c ≠ '/' := by
        rintro rfl
        have := splitOn_append_sep '/' [] path (by simp)
        exact (h [] (by rw [List.nil_append] at this; simp [this])).1 rfl
      simp [initialSlashes, hc]

theorem normpath_of_proper {path : Text}
    (h : ∀ piece ∈ path.splitOn '/', ProperPiece piece) : normpath path = path := by
  have hne : path ≠ [] := by
    rintro rfl
    exact (h [] (by simp)).1 rfl
  have hjoin : ['/'].intercalate (path.splitOn '/') = path :=
    List.intercalate_splitOn '/'
  simp only [normpath, initialSlashes_of_proper h, foldl_pushPiece_proper _ _ _ h,
    List.append_nil, List.reverse_reverse, hjoin, List.nil_append]

/-! ## Characters of a key -/

theorem mem_of_mem_foldl_pushPiece {absolute : Bool} {piece : Text}
    (pieces stack : List Text) (h : piece ∈ pieces.foldl (pushPiece absolute) stack) :
    piece ∈ stack ∨ piece ∈ pieces := by
  induction pieces generalizing stack with
  | nil => exact .inl h
  | cons next pieces ih =>
      rcases ih _ h with h | h
      · have hstack : piece ∈ next :: stack := by
          unfold pushPiece at h
          split at h
          · simp [h]
          · split at h
            · exact h
            · cases stack with
              | nil => cases absolute <;> simp_all
              | cons top below => grind
        rcases List.mem_cons.mp hstack with rfl | h
        · exact .inr (by simp)
        · exact .inl h
      · exact .inr (by simp [h])

theorem mem_initialSlashes {c : Char} {path : Text} (h : c ∈ initialSlashes path) :
    c = '/' := by
  unfold initialSlashes at h
  split at h <;> simp_all

theorem mem_normpath {c : Char} {path : Text} (h : c ∈ normpath path) :
    c ∈ path ∨ c = '.' ∨ c = '/' := by
  unfold normpath at h
  simp only at h
  split at h
  · exact .inr (.inl (by simpa using h))
  · rcases List.mem_append.mp h with h | h
    · exact .inr (.inr (mem_initialSlashes h))
    · rcases mem_of_mem_intercalate h with h | ⟨piece, hpiece, hc⟩
      · exact .inr (.inr (by simpa using h))
      · rcases mem_of_mem_foldl_pushPiece _ _ (List.mem_reverse.mp hpiece) with h | h
        · simp at h
        · exact .inl (mem_of_mem_splitOn '/' path h hc)

theorem mem_locationKey {c : Char} {l : Text} (h : c ∈ locationKey l) :
    c ∈ l ∨ c = '.' ∨ c = '/' :=
  (mem_normpath h).imp_left mem_of_mem_stripBy

/-! ## Stripping in front -/

def isDotSlash (c : Char) : Bool := c == '.' || c == '/'

theorem mem_tail_splitOn_append {sep : Char} {piece t : Text} :
    ∀ pre : Text, piece ∈ (t.splitOn sep).tail → piece ∈ ((pre ++ t).splitOn sep).tail
  | [], h => h
  | c :: pre, h => by
      have ih := mem_tail_splitOn_append pre h
      obtain ⟨first, rest, hsplit⟩ :=
        List.exists_cons_of_ne_nil (List.splitOn_ne_nil sep (pre ++ t))
      rw [hsplit] at ih
      rw [List.cons_append, List.splitOn_cons_eq_if_modifyHead, hsplit]
      split
      · exact List.mem_cons_of_mem _ ih
      · exact ih

theorem dropWhile_append_cons_neg {p : Char → Bool} {c : Char} (init rest : Text)
    (hc : p c = false) : (init ++ c :: rest).dropWhile p = init.dropWhile p ++ c :: rest := by
  induction init with
  | nil => simp [hc]
  | cons d init ih => by_cases hd : p d = true <;> simp [hd, ih]

/-- Nothing is stripped behind a character that is neither dot nor slash. -/
theorem locationKey_eq_normpath {l init : Text} {last : Char} (hl : l = init ++ [last])
    (hlast : isDotSlash last = false) : locationKey l = normpath (l.dropWhile isDotSlash) := by
  have hstrip : stripBy isDotSlash l = l.dropWhile isDotSlash := by
    rw [stripBy, hl, dropWhile_append_cons_neg init [] hlast,
      List.rdropWhile_concat_neg _ _ _ (by simp [hlast])]
  rw [← hstrip]
  rfl

theorem head?_dropWhile_isDotSlash (l : Text) :
    ∀ c ∈ (l.dropWhile isDotSlash).head?, isDotSlash c = false := by
  intro c hc
  have := List.head?_dropWhile_not isDotSlash l
  rw [Option.mem_def.mp hc] at this
  simpa using this

theorem locationKey_eq {l init : Text} {last : Char} (hl : l = init ++ [last])
    (hlast : isDotSlash last = false)
    (hproper : ∀ piece ∈ l.splitOn '/', ProperPiece piece) :
    locationKey l = l.dropWhile isDotSlash := by
  have hsplit : l = l.takeWhile isDotSlash ++ l.dropWhile isDotSlash :=
    (List.takeWhile_append_dropWhile ..).symm
  rw [locationKey_eq_normpath hl hlast]
  apply normpath_of_proper
  intro piece hpiece
  cases ht : l.dropWhile isDotSlash with
  | nil =>
      rw [hl, dropWhile_append_cons_neg init [] hlast] at ht
      simp at ht
  | cons c t =>
      have hc : isDotSlash c = false := head?_dropWhile_isDotSlash l c (by rw [ht]; rfl)
      have hdot : c ≠ '.' := by rintro rfl; simp [isDotSlash] at hc
      have hslash : c ≠ '/' := by rintro rfl; simp [isDotSlash] at hc
      obtain ⟨first, rest, hfields⟩ :=
        List.exists_cons_of_ne_nil (List.splitOn_ne_nil '/' t)
      have hpieces : (c :: t).splitOn '/' = (c :: first) :: rest := by
        rw [List.splitOn_cons_eq_if_modifyHead, if_neg (by simpa using hslash),
          hfields, List.modifyHead_cons]
      rw [ht, hpieces] at hpiece
      rcases List.mem_cons.mp hpiece with rfl | hrest
      · exact ⟨by simp, by simp [hdot], by simp [hdot]⟩
      · refine hproper piece (List.mem_of_mem_tail ?_)
        rw [hsplit, ht]
        exact mem_tail_splitOn_append _ (by simpa [hpieces] using hrest)

end TdvfFuzz.Smatcher
