import MaskedViews.Proofs.Markup.Settling

/-!
# The normal form of whitespace

Normalized text has nothing but single spaces for blanks, none of them at its ends or in a gap between
`>` and `<` (`isNormal_normalizeWhitespace`), and such a text is left as it is
(`normalizeWhitespace_of_isNormal`). Its characters that are no blanks are those of the text it came
from, in their order; two of them stand side by side where they did before, or where a gap was closed
(`normalizeWhitespace_canonical`).

Everything is said of settled text first, and there of putting one character in front: what that can
add is a space in front of no space, a character that is no blank, or `>` in front of a gap, which it
closes.
-/

namespace MaskedViews

/-- The characters of a text that are no blanks, in order. -/
def Text.solids (s : Text) : Text := s.filter fun c => !Text.isBlank c

namespace Text

@[simp] theorem solids_append (s t : Text) : solids (s ++ t) = solids s ++ solids t :=
  List.filter_append ..

theorem solids_cons_of_isBlank {c : Char} (h : isBlank c = true) (s : Text) :
    solids (c :: s) = solids s := by
  simp [solids, h]

theorem solids_cons_of_not_isBlank {c : Char} (h : isBlank c = false) (s : Text) :
    solids (c :: s) = c :: solids s := by
  simp [solids, h]

theorem solids_of_blanks {b : Text} (hb : Blanks b) : solids b = [] :=
  List.filter_eq_nil_iff.2 fun c hc => by simp [hb c hc]

end Text

namespace Markup

/-! ### The form of settled text -/

/-- A text with single spaces for blanks and none of them in a gap. -/
structure IsEven (s : Text) : Prop where
  /-- There is no blank but the space. -/
  space : ∀ c ∈ s, Text.isBlank c = true → c = ' '
  /-- No two spaces stand side by side. -/
  single : ¬[' ', ' '] <:+: s
  /-- No space stands between `>` and `<`. -/
  gap : ¬['>', ' ', '<'] <:+: s

/-- A text with its blanks in normal form. -/
structure IsNormal (s : Text) : Prop extends IsEven s where
  /-- It begins with no blank. -/
  head : ∀ c ∈ s.head?, Text.isBlank c = false
  /-- It ends in no blank. -/
  last : ∀ c ∈ s.getLast?, Text.isBlank c = false

theorem IsEven.part {s t : Text} (ht : IsEven t) (h : s <:+: t) : IsEven s :=
  ⟨fun c hc => ht.space c (h.subset hc), fun hs => ht.single (hs.trans h),
    fun hs => ht.gap (hs.trans h)⟩

/-- What a character must mind in front of an even text. -/
theorem isEven_cons {c : Char} {s : Text} (hs : IsEven s) (hspace : Text.isBlank c = true → c = ' ')
    (hsingle : c = ' ' → s.head? ≠ some ' ') (hgap : c = '>' → ∀ r, s ≠ ' ' :: '<' :: r) :
    IsEven (c :: s) := by
  refine ⟨fun d hd => ?_, fun h => ?_, fun h => ?_⟩
  · rcases List.mem_cons.1 hd with rfl | hd
    · exact hspace
    · exact hs.space d hd
  · rcases List.infix_cons_iff.1 h with ⟨r, hr⟩ | h
    · obtain ⟨rfl, htail⟩ := List.cons.inj hr
      exact hsingle rfl (by rw [← htail]; rfl)
    · exact hs.single h
  · rcases List.infix_cons_iff.1 h with ⟨r, hr⟩ | h
    · obtain ⟨rfl, htail⟩ := List.cons.inj hr
      exact hgap rfl r htail.symm
    · exact hs.gap h

/-- Putting a character in front keeps a text even. -/
theorem IsEven.push {s : Text} (hs : IsEven s) (c : Char) : IsEven (push c s) := by
  by_cases hc : Text.isBlank c = true
  · rw [push_of_isBlank hc]
    by_cases hhead : s.head? = some ' '
    · rwa [spaced_of_head hhead]
    · rw [spaced_of_ne_head hhead]
      exact isEven_cons hs (fun _ => rfl) (fun _ => hhead) fun h => absurd h (by decide)
  · rw [Bool.not_eq_true] at hc
    have hspace : c ≠ ' ' := by
      rintro rfl
      exact absurd hc (by decide)
    have hblank : Text.isBlank c = true → c = ' ' := fun h => by rw [hc] at h; cases h
    rw [push_of_not_isBlank hc]
    by_cases hgap : c = '>' ∧ ∃ r, s = ' ' :: '<' :: r
    · obtain ⟨rfl, r, rfl⟩ := hgap
      refine isEven_cons (hs.part ⟨[' '], [], by simp⟩) hblank (fun h => absurd h hspace) ?_
      simp
    · have habut : abut c s = c :: s := by
        rw [abut]
        exact fun r hc' hs' => hgap ⟨hc', r, hs'⟩
      rw [habut]
      exact isEven_cons hs hblank (fun h => absurd h hspace) fun h r hr => hgap ⟨h, r, hr⟩

theorem isEven_settle (s : Text) : IsEven (settle s) := by
  induction s with
  | nil => exact ⟨by simp, by simp, by simp⟩
  | cons c s ih =>
    rw [settle_cons]
    exact ih.push c

theorem isNormal_normalizeWhitespace (s : Text) : IsNormal (normalizeWhitespace s) := by
  obtain ⟨b₁, b₂, -, -, hs⟩ := exists_settle_eq s
  refine ⟨(isEven_settle s).part ⟨b₁, b₂, by rw [hs, List.append_assoc]⟩, ?_, ?_⟩
  · rcases Text.trim_eq_nil_or (settle s) with h | ⟨⟨c, r, hc, h⟩, -⟩
    · simp [normalizeWhitespace_eq, h]
    · simp [normalizeWhitespace_eq, h, hc]
  · rcases Text.trim_eq_nil_or (settle s) with h | ⟨-, t, d, hd, h⟩
    · simp [normalizeWhitespace_eq, h]
    · simp [normalizeWhitespace_eq, h, hd]

/-! ### Texts in normal form -/

theorem settle_of_isEven {s : Text} (h : IsEven s) : settle s = s := by
  induction s with
  | nil => rfl
  | cons c s ih =>
    rw [settle_cons, ih (h.part ⟨[c], [], by simp⟩)]
    by_cases hc : Text.isBlank c = true
    · obtain rfl := h.space c (by simp) hc
      rw [push_of_isBlank hc, spaced_of_ne_head]
      intro hhead
      obtain ⟨r, rfl⟩ := List.head?_eq_some_iff.1 hhead
      exact h.single ⟨[], r, rfl⟩
    · rw [Bool.not_eq_true] at hc
      rw [push_of_not_isBlank hc, abut]
      rintro r rfl rfl
      exact h.gap ⟨[], r, rfl⟩

/-- **Text in normal form stays as it is.** -/
theorem normalizeWhitespace_of_isNormal {s : Text} (h : IsNormal s) : normalizeWhitespace s = s := by
  rw [normalizeWhitespace_eq, settle_of_isEven h.toIsEven]
  rcases List.eq_nil_or_concat s with rfl | ⟨t, d, hd⟩
  · rfl
  rw [List.concat_eq_append] at hd
  have hlast : Text.isBlank d = false := h.last d (by simp [hd])
  cases hs : s with
  | nil => rfl
  | cons c r => exact Text.trim_of_ends (h.head c (by simp [hs])) hlast rfl (hs ▸ hd)

/-- Normalized whitespace is normal. -/
theorem normalizeWhitespace_normalizeWhitespace (s : Text) :
    normalizeWhitespace (normalizeWhitespace s) = normalizeWhitespace s :=
  normalizeWhitespace_of_isNormal (isNormal_normalizeWhitespace s)

/-! ### The characters that are no blanks -/

theorem solids_push (c : Char) (s : Text) : Text.solids (push c s) = Text.solids (c :: s) := by
  have hspace : Text.isBlank ' ' = true := by decide
  by_cases hc : Text.isBlank c = true
  · rw [push_of_isBlank hc, Text.solids_cons_of_isBlank hc]
    by_cases hhead : s.head? = some ' '
    · rw [spaced_of_head hhead]
    · rw [spaced_of_ne_head hhead, Text.solids_cons_of_isBlank hspace]
  · rw [Bool.not_eq_true] at hc
    rw [push_of_not_isBlank hc]
    unfold abut
    split
    · rw [Text.solids_cons_of_not_isBlank hc, Text.solids_cons_of_not_isBlank hc,
        Text.solids_cons_of_isBlank hspace]
    · rfl

theorem solids_settle (s : Text) : Text.solids (settle s) = Text.solids s := by
  induction s with
  | nil => rfl
  | cons c s ih =>
    rw [settle_cons, solids_push]
    simp only [Text.solids, List.filter_cons] at ih ⊢
    rw [ih]

theorem solids_normalizeWhitespace (s : Text) :
    Text.solids (normalizeWhitespace s) = Text.solids s := by
  obtain ⟨b₁, b₂, h₁, h₂, hs⟩ := exists_settle_eq s
  rw [← solids_settle s, hs, Text.solids_append, Text.solids_append, Text.solids_of_blanks h₁,
    Text.solids_of_blanks h₂]
  simp

/-! ### Characters side by side -/

variable {a b : Char} {x y s : Text}

/-- What stands behind a space that is put in front of a text stands in the text. -/
theorem exists_eq_of_spaced_eq (ha : Text.isBlank a = false) (h : spaced s = x ++ a :: y) :
    ∃ z, s = z ++ a :: y ∧ Text.solids z = Text.solids x := by
  by_cases hhead : s.head? = some ' '
  · rw [spaced_of_head hhead] at h
    exact ⟨x, h, rfl⟩
  · rw [spaced_of_ne_head hhead] at h
    cases x with
    | nil =>
      rw [← (List.cons.inj h).1] at ha
      exact absurd ha (by decide)
    | cons d x =>
      obtain ⟨rfl, htail⟩ := List.cons.inj h
      exact ⟨x, htail, (Text.solids_cons_of_isBlank (by decide) x).symm⟩

/-- Two neighbours in settled text that are no blanks have been neighbours, or they are the ends of a
gap. -/
theorem exists_neighbours_of_settle (ha : Text.isBlank a = false) (hb : Text.isBlank b = false)
    (h : settle s = x ++ a :: b :: y) :
    (∃ x' y', s = x' ++ a :: b :: y' ∧ Text.solids x' = Text.solids x ∧
      Text.solids y' = Text.solids y) ∨ a = '>' ∧ b = '<' := by
  -- from the first character on, as settling goes: the one in front of the rest, which is settled
  induction s generalizing x with
  | nil => simp at h
  | cons d s ih =>
    have hcons {z : Text} (hz : settle s = z ++ a :: b :: y)
        (hx : Text.solids (d :: z) = Text.solids x) :
        (∃ x' y', d :: s = x' ++ a :: b :: y' ∧ Text.solids x' = Text.solids x ∧
          Text.solids y' = Text.solids y) ∨ a = '>' ∧ b = '<' := by
      refine (ih hz).imp_left fun ⟨x', y', hs, hx', hy'⟩ => ⟨d :: x', y', by rw [hs]; rfl, ?_, hy'⟩
      rw [← hx]
      simp only [Text.solids, List.filter_cons] at hx' ⊢
      rw [hx']
    rw [settle_cons] at h
    by_cases hd : Text.isBlank d = true
    · rw [push_of_isBlank hd] at h
      obtain ⟨z, hz, hx⟩ := exists_eq_of_spaced_eq ha h
      exact hcons hz (by rw [Text.solids_cons_of_isBlank hd, hx])
    rw [Bool.not_eq_true] at hd
    rw [push_of_not_isBlank hd] at h
    by_cases hgap : d = '>' ∧ ∃ r, settle s = ' ' :: '<' :: r
    · obtain ⟨rfl, r, hr⟩ := hgap
      rw [hr, abut] at h
      cases x with
      | nil =>
        obtain ⟨rfl, htail⟩ := List.cons.inj h
        exact Or.inr ⟨rfl, (List.cons.inj htail).1.symm⟩
      | cons e x =>
        obtain ⟨rfl, htail⟩ := List.cons.inj h
        refine hcons (z := ' ' :: x) (by rw [hr, htail]; rfl) ?_
        rw [Text.solids_cons_of_not_isBlank hd, Text.solids_cons_of_not_isBlank hd,
          Text.solids_cons_of_isBlank (by decide)]
    · have habut : abut d (settle s) = d :: settle s := by
        rw [abut]
        exact fun r hd' hs => hgap ⟨hd', r, hs⟩
      rw [habut] at h
      cases x with
      | cons e x =>
        obtain ⟨rfl, htail⟩ := List.cons.inj h
        exact hcons htail rfl
      | nil =>
        obtain ⟨rfl, htail⟩ := List.cons.inj h
        -- what settles to a text that begins with no blank begins with the same character
        cases s with
        | nil => simp at htail
        | cons e s =>
          have hhead := head?_settle_cons e s
          rw [htail, List.head?_cons, Option.some.injEq] at hhead
          split at hhead
          · rw [hhead] at hb
            exact absurd hb (by decide)
          · subst hhead
            refine Or.inl ⟨[], s, rfl, rfl, ?_⟩
            have hsolids := solids_settle (b :: s)
            rw [htail, Text.solids_cons_of_not_isBlank hb, Text.solids_cons_of_not_isBlank hb] at hsolids
            exact (List.cons.inj hsolids).2.symm

/-- **Normalizing whitespace gives a normal form**: blanks are single spaces inside the text and none
in a gap, to normalize again changes nothing, the other characters stay in their order, and none comes
to stand beside another that it did not stand beside before, but for the ends of a gap. -/
theorem normalizeWhitespace_canonical (s : Text) :
    IsNormal (normalizeWhitespace s) ∧
      normalizeWhitespace (normalizeWhitespace s) = normalizeWhitespace s ∧
      Text.solids (normalizeWhitespace s) = Text.solids s ∧
      ∀ x a b y, Text.isBlank a = false → Text.isBlank b = false →
        normalizeWhitespace s = x ++ a :: b :: y →
        (∃ x' y', s = x' ++ a :: b :: y' ∧ Text.solids x' = Text.solids x ∧
          Text.solids y' = Text.solids y) ∨ a = '>' ∧ b = '<' := by
  refine ⟨isNormal_normalizeWhitespace s, normalizeWhitespace_normalizeWhitespace s,
    solids_normalizeWhitespace s, ?_⟩
  intro x a b y ha hb h
  obtain ⟨b₁, b₂, h₁, h₂, hs⟩ := exists_settle_eq s
  have hsettle : settle s = (b₁ ++ x) ++ a :: b :: (y ++ b₂) := by rw [hs, h]; simp
  refine (exists_neighbours_of_settle ha hb hsettle).imp_left fun ⟨x', y', he, hx, hy⟩ =>
    ⟨x', y', he, ?_, ?_⟩
  · rw [hx, Text.solids_append, Text.solids_of_blanks h₁, List.nil_append]
  · rw [hy, Text.solids_append, Text.solids_of_blanks h₂, List.append_nil]

end Markup

end MaskedViews
