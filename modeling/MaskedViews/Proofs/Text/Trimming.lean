import MaskedViews.Text.Blank
import Mathlib.Data.List.TakeWhile

/-!
# Trimmed text

A text is the text trimmed between blanks (`exists_eq_append_trim`), and blanks at its ends do not
change what trimming gives. A text whose first and last characters are no blanks is trimmed.
-/

namespace MaskedViews.Text

/-- The code points of the blanks. -/
def blankCodes : List Nat :=
  [0x20, 0x9, 0xa, 0xb, 0xc, 0xd, 0x85, 0xa0, 0x1680, 0x2000, 0x2001, 0x2002, 0x2003, 0x2004,
    0x2005, 0x2006, 0x2007, 0x2008, 0x2009, 0x200a, 0x2028, 0x2029, 0x202f, 0x205f, 0x3000]

theorem toNat_mem_blankCodes {c : Char} (h : isBlank c = true) : c.toNat ∈ blankCodes := by
  have hle (a b : Char) : a ≤ b ↔ a.toNat ≤ b.toNat := Iff.rfl
  simp only [isBlank, Bool.or_eq_true, Bool.and_eq_true, decide_eq_true_eq, hle,
    ← Char.toNat_inj, Char.reduceToNat] at h
  simp only [blankCodes, List.mem_cons, List.not_mem_nil, or_false]
  omega

/-- Nothing but blanks. -/
def Blanks (s : Text) : Prop := ∀ c ∈ s, isBlank c = true

instance : DecidablePred Blanks := fun s => List.decidableBAll _ s

theorem Blanks.nil : Blanks [] := by simp [Blanks]

theorem Blanks.append {s t : Text} (hs : Blanks s) (ht : Blanks t) : Blanks (s ++ t) := by
  intro c hc
  rcases List.mem_append.1 hc with h | h
  · exact hs c h
  · exact ht c h

theorem Blanks.reverse {s : Text} (hs : Blanks s) : Blanks s.reverse :=
  fun c hc => hs c (List.mem_reverse.1 hc)

theorem blanks_takeWhile (s : Text) : Blanks (s.takeWhile isBlank) :=
  fun _ hc => List.mem_takeWhile_imp hc

theorem trimStart_blanks_append {b : Text} (hb : Blanks b) (s : Text) :
    trimStart (b ++ s) = trimStart s :=
  List.dropWhile_append_of_pos hb

theorem trimStart_of_head {c : Char} (hc : isBlank c = false) (s : Text) :
    trimStart (c :: s) = c :: s := by
  simp [trimStart, hc]

theorem trimEnd_append_blanks (s : Text) {b : Text} (hb : Blanks b) :
    trimEnd (s ++ b) = trimEnd s := by
  rw [trimEnd, dropEndWhile, List.reverse_append, List.dropWhile_append_of_pos hb.reverse]
  rfl

theorem trimEnd_of_last (s : Text) {c : Char} (hc : isBlank c = false) :
    trimEnd (s ++ [c]) = s ++ [c] := by
  simp [trimEnd, dropEndWhile, hc]

@[simp] theorem trimEnd_nil : trimEnd [] = [] := rfl

theorem trimEnd_of_blanks {b : Text} (hb : Blanks b) : trimEnd b = [] := by
  simpa using trimEnd_append_blanks [] hb

@[simp] theorem trim_nil : trim [] = [] := rfl

theorem trimStart_of_blanks {b : Text} (hb : Blanks b) : trimStart b = [] := by
  simpa [trimStart] using trimStart_blanks_append hb []

theorem trim_of_blanks {b : Text} (hb : Blanks b) : trim b = [] := by
  rw [trim, trimStart_of_blanks hb, trimEnd_nil]

theorem trim_blanks_append {b : Text} (hb : Blanks b) (s : Text) : trim (b ++ s) = trim s := by
  rw [trim, trimStart_blanks_append hb, trim]

/-- A text is what is left when its leading blanks are gone, behind them. -/
theorem exists_eq_append_trimStart (s : Text) : ∃ b, Blanks b ∧ s = b ++ trimStart s :=
  ⟨s.takeWhile isBlank, blanks_takeWhile s, (List.takeWhile_append_dropWhile).symm⟩

theorem exists_eq_append_trimEnd (s : Text) : ∃ b, Blanks b ∧ s = trimEnd s ++ b := by
  refine ⟨(s.reverse.takeWhile isBlank).reverse, (blanks_takeWhile _).reverse, ?_⟩
  exact (dropEndWhile_append isBlank s).symm

/-- A text is the trimmed text between blanks. -/
theorem exists_eq_append_trim (s : Text) :
    ∃ b₁ b₂, Blanks b₁ ∧ Blanks b₂ ∧ s = b₁ ++ (trim s ++ b₂) := by
  obtain ⟨b₁, h₁, hs⟩ := exists_eq_append_trimStart s
  obtain ⟨b₂, h₂, ht⟩ := exists_eq_append_trimEnd (trimStart s)
  exact ⟨b₁, b₂, h₁, h₂, by rw [trim, ← ht, ← hs]⟩

/-- What is left of a text that has more than blanks begins with none of them. -/
theorem trimStart_eq_nil_or (s : Text) :
    trimStart s = [] ∨ ∃ c r, isBlank c = false ∧ trimStart s = c :: r := by
  induction s with
  | nil => exact Or.inl rfl
  | cons c s ih =>
    by_cases hc : isBlank c = true
    · simpa [trimStart, hc] using ih
    · rw [Bool.not_eq_true] at hc
      exact Or.inr ⟨c, s, hc, trimStart_of_head hc s⟩

theorem trim_append_blanks (s : Text) {b : Text} (hb : Blanks b) : trim (s ++ b) = trim s := by
  obtain ⟨b₁, h₁, hs⟩ := exists_eq_append_trimStart s
  rcases trimStart_eq_nil_or s with h | ⟨c, r, hc, h⟩
  · rw [h, List.append_nil] at hs
    rw [hs, trim_of_blanks (h₁.append hb), trim_of_blanks h₁]
  · rw [hs, h, List.append_assoc, trim_blanks_append h₁, trim_blanks_append h₁, trim, trim,
      List.cons_append, trimStart_of_head hc, trimStart_of_head hc, ← List.cons_append,
      trimEnd_append_blanks _ hb]

/-- Between characters that are no blanks there is nothing to trim. -/
theorem trim_of_ends {s r t : Text} {c d : Char} (hc : isBlank c = false) (hd : isBlank d = false)
    (h₁ : s = c :: r) (h₂ : s = t ++ [d]) : trim s = s := by
  have : trimStart s = s := by
    rw [h₁]
    exact trimStart_of_head hc r
  rw [trim, this, h₂, trimEnd_of_last t hd]

theorem trim_of_forall {s : Text} (h : ∀ c ∈ s, isBlank c = false) : trim s = s := by
  have hstart : trimStart s = s := by
    cases s with
    | nil => rfl
    | cons c s => exact trimStart_of_head (h c List.mem_cons_self) s
  rw [trim, hstart]
  rcases List.eq_nil_or_concat s with rfl | ⟨t, d, hs⟩
  · rfl
  · rw [hs, List.concat_eq_append]
    exact trimEnd_of_last t (h d (by simp [hs]))

/-- What is left of a text when its trailing blanks are gone does not end with one. -/
theorem trimEnd_eq_nil_or (s : Text) :
    trimEnd s = [] ∨ ∃ t d, isBlank d = false ∧ trimEnd s = t ++ [d] := by
  rcases trimStart_eq_nil_or s.reverse with h | ⟨d, r, hd, h⟩
  · exact Or.inl (by rw [trimEnd, dropEndWhile, ← trimStart, h]; rfl)
  · exact Or.inr ⟨r.reverse, d, hd, by rw [trimEnd, dropEndWhile, ← trimStart, h]; simp⟩

@[simp] theorem trimEnd_trimEnd (s : Text) : trimEnd (trimEnd s) = trimEnd s := by
  rcases trimEnd_eq_nil_or s with h | ⟨r, d, hd, h⟩
  · rw [h, trimEnd_nil]
  · rw [h, trimEnd_of_last r hd]

theorem blanks_of_trimEnd {s : Text} (h : trimEnd s = []) : Blanks s := by
  obtain ⟨b, hb, hs⟩ := exists_eq_append_trimEnd s
  rw [hs, h, List.nil_append]
  exact hb

/-- The blanks at the end of a text are those at the end of its last part, if that has more. -/
theorem trimEnd_append_of_ne_nil (s : Text) {t : Text} (h : trimEnd t ≠ []) :
    trimEnd (s ++ t) = s ++ trimEnd t := by
  obtain ⟨b, hb, ht⟩ := exists_eq_append_trimEnd t
  rcases trimEnd_eq_nil_or t with hnil | ⟨r, d, hd, hr⟩
  · exact absurd hnil h
  · rw [hr] at ht ⊢
    rw [ht, ← List.append_assoc, trimEnd_append_blanks _ hb, ← List.append_assoc,
      trimEnd_of_last _ hd, List.append_assoc]

theorem trimEnd_append_of_last (s : Text) {c : Char} (hc : isBlank c = false) (t : Text) :
    trimEnd (s ++ [c] ++ t) = s ++ [c] ++ trimEnd t := by
  by_cases h : trimEnd t = []
  · rw [trimEnd_append_blanks _ (blanks_of_trimEnd h), trimEnd_of_last s hc, h, List.append_nil]
  · exact trimEnd_append_of_ne_nil _ h

/-- A trimmed text is empty or has no blank at either end. -/
theorem trim_eq_nil_or (s : Text) :
    trim s = [] ∨ (∃ c r, isBlank c = false ∧ trim s = c :: r) ∧
      ∃ t d, isBlank d = false ∧ trim s = t ++ [d] := by
  rcases trimEnd_eq_nil_or (trimStart s) with h | ⟨t, d, hd, h⟩
  · exact Or.inl h
  refine Or.inr ⟨?_, t, d, hd, h⟩
  rcases trimStart_eq_nil_or s with hs | ⟨c, r, hc, hs⟩
  · rw [hs] at h
    simp at h
  · obtain ⟨b, -, hb⟩ := exists_eq_append_trimEnd (trimStart s)
    rw [h, hs] at hb
    cases t with
    | nil =>
      simp only [List.nil_append, List.cons_append, List.cons.injEq] at hb
      exact ⟨d, [], hd, h⟩
    | cons e t =>
      simp only [List.cons_append, List.cons.injEq] at hb
      exact ⟨c, t ++ [d], hc, by rw [trim, h, hb.1, List.cons_append]⟩

@[simp] theorem trim_trim (s : Text) : trim (trim s) = trim s := by
  rcases trim_eq_nil_or s with h | ⟨⟨c, r, hc, h₁⟩, t, d, hd, h₂⟩
  · rw [h, trim_nil]
  · exact trim_of_ends hc hd h₁ h₂

theorem mem_of_mem_trim {s : Text} {c : Char} (h : c ∈ trim s) : c ∈ s := by
  obtain ⟨b₁, b₂, -, -, hs⟩ := exists_eq_append_trim s
  rw [hs]
  simp [h]

theorem mem_trim {s : Text} {c : Char} (hc : isBlank c = false) : c ∈ trim s ↔ c ∈ s := by
  refine ⟨mem_of_mem_trim, fun h => ?_⟩
  obtain ⟨b₁, b₂, h₁, h₂, hs⟩ := exists_eq_append_trim s
  rw [hs] at h
  simp only [List.mem_append] at h
  rcases h with h | h | h
  · simp [h₁ c h] at hc
  · exact h
  · simp [h₂ c h] at hc

end MaskedViews.Text
