import MaskedViews.Proofs.Template.Placeholders

/-!
# Patches outside placeholders

A stretch of text that holds a character foreign to placeholders is part of no placeholder. So it
may be exchanged for another such stretch, as long as no brace comes or goes with it, and the
placeholders of the template stay what they are (`paths_of_patched`). Other classes of characters
mark stretches that are part of no tag of some kind.
-/

namespace MaskedViews.Token

/-- Whether a character stands in no placeholder. -/
def isForeign (c : Char) : Bool := !isPathChar c && !Text.isBlank c

/-- A text that holds a character of a class. -/
def Has (p : Char → Bool) (s : Text) : Prop := ∃ c ∈ s, p c = true

/-- Stretches that are the same or both hold a character of a class. -/
def Patched (p : Char → Bool) (s t : Text) : Prop := s = t ∨ Has p s ∧ Has p t

variable {p : Char → Bool}

theorem Has.append_right {s : Text} (h : Has p s) (t : Text) : Has p (s ++ t) := by
  obtain ⟨c, hc, hp⟩ := h
  exact ⟨c, List.mem_append_left t hc, hp⟩

theorem Has.append_left {t : Text} (h : Has p t) (s : Text) : Has p (s ++ t) := by
  obtain ⟨c, hc, hp⟩ := h
  exact ⟨c, List.mem_append_right s hc, hp⟩

theorem Has.ne_nil {s : Text} (h : Has p s) : s ≠ [] := by
  rintro rfl
  obtain ⟨c, hc, -⟩ := h
  cases hc

theorem Patched.append {s t s' t' : Text} (h : Patched p s t) (h' : Patched p s' t') :
    Patched p (s ++ s') (t ++ t') := by
  rcases h with rfl | h
  · rcases h' with rfl | h'
    · exact Or.inl rfl
    · exact Or.inr ⟨h'.1.append_left s, h'.2.append_left s⟩
  · exact Or.inr ⟨h.1.append_right s', h.2.append_right t'⟩

theorem Patched.symm {s t : Text} (h : Patched p s t) : Patched p t s :=
  h.imp Eq.symm And.symm

theorem matching_patched (p : Char → Bool) : Matching (Patched p) where
  nil := Or.inl rfl
  empty_iff := by
    rintro s t (rfl | ⟨hs, ht⟩)
    · rfl
    · exact ⟨fun h => absurd h hs.ne_nil, fun h => absurd h ht.ne_nil⟩

/-- Every text is patched into itself. -/
theorem parallel_patched_refl (p : Char → Bool) (s : Text) : Parallel (Patched p) s s :=
  Parallel.refl (fun _ => Or.inl rfl) s

/-- A stretch may be exchanged for another inside any text. -/
theorem parallel_patch (s : Text) {b b' : Text} (t : Text) (hb : Braceless b) (hb' : Braceless b')
    (h : Has p b) (h' : Has p b') : Parallel (Patched p) (s ++ (b ++ t)) (s ++ (b' ++ t)) :=
  (parallel_patched_refl p s).append Patched.append
    ((Parallel.stretch hb hb' (Or.inr ⟨h, h'⟩)).append Patched.append (parallel_patched_refl p t))

/-! ### Patches and placeholders -/

/-- A text with a foreign character is no path, blanks aside. -/
theorem isPath_trim_of_foreign {s : Text} (h : Has isForeign s) : isPath (Text.trim s) = false := by
  obtain ⟨c, hc, hf⟩ := h
  simp only [isForeign, Bool.and_eq_true, Bool.not_eq_true'] at hf
  rw [← Bool.not_eq_true]
  intro hpath
  have := isPathChar_of_isPath hpath c ((Text.mem_trim hf.2).2 hc)
  rw [hf.1] at this
  cases this

theorem eq_of_isPath_trim {s t : Text} (h : Parallel (Patched isForeign) s t)
    (hs : isPath (Text.trim s) = true) : t = s := by
  rcases (h.of_braceless (braceless_of_isPath_trim hs)).2 with rfl | h
  · rfl
  · rw [isPath_trim_of_foreign h.1] at hs
    cases hs

/-- The placeholder that a tag is does not change. -/
theorem path?_of_matches {x y : Token} (h : Matches (Patched isForeign) x y) :
    y.path? = x.path? := by
  refine Option.ext fun path => ?_
  rw [path?_eq_some_iff, path?_eq_some_iff]
  have hcontent {s t : Text} (h : Parallel (Patched isForeign) s t) :
      (isPath path = true ∧ path = Text.trim t) ↔ (isPath path = true ∧ path = Text.trim s) := by
    constructor
    · rintro ⟨hpath, rfl⟩
      rw [eq_of_isPath_trim (h.symm Patched.symm) hpath]
      exact ⟨hpath, rfl⟩
    · rintro ⟨hpath, rfl⟩
      rw [eq_of_isPath_trim h hpath]
      exact ⟨hpath, rfl⟩
  cases h with
  | text h => simp [content?]
  | tag h => simp [content?, hcontent h]
  | rawTag h => simp [content?, hcontent h]

/-- **Patches leave the placeholders as they are.** -/
theorem paths_of_patched {s t : Text} (h : Parallel (Patched isForeign) s t) : paths t = paths s := by
  rw [paths, paths, filterMap_path?_tags, filterMap_path?_tags]
  have hmatch := tokenize_parallel (matching_patched isForeign) h
  generalize tokenize s = xs at hmatch
  generalize tokenize t = ys at hmatch
  induction hmatch with
  | nil => rfl
  | cons hxy _ ih => rw [List.filterMap_cons, List.filterMap_cons, path?_of_matches hxy, ih]

end MaskedViews.Token
