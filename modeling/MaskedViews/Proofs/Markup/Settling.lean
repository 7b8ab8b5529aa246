import MaskedViews.Markup.Whitespace
import MaskedViews.Proofs.Text.Trimming

/-!
# Settled text

Normalizing whitespace does three things: every stretch of blanks becomes one space, a space between
`>` and `<` goes, and the ends are trimmed. The first two together are called *settling* here. They
are one pass from the right: settling puts a character at a time in front of text that is settled
already (`settle_eq_foldr`).

Main statements: a stretch inside a text may be settled before the whole is, and that makes no
difference (`settle_append_settle`), so that two texts normalize alike may be shown stretch by
stretch (`Alike.append`); and blanks at the ends make none either
(`normalizeWhitespace_blanks_append`, `normalizeWhitespace_append_blanks`).
-/

namespace MaskedViews.Markup

/-- The text with every stretch of blanks made one space and no space between `>` and `<`. -/
def settle (s : Text) : Text := closeGaps (collapseBlanks s)

theorem normalizeWhitespace_eq (s : Text) : normalizeWhitespace s = Text.trim (settle s) := rfl

/-- Puts a character that is no blank in front of settled text. -/
def abut : Char → Text → Text
  | '>', ' ' :: '<' :: s => '>' :: '<' :: s
  | c, s => c :: s

/-- Puts a character in front of settled text. -/
def push (c : Char) (s : Text) : Text := if Text.isBlank c then spaced s else abut c s

theorem push_of_isBlank {c : Char} (h : Text.isBlank c = true) (s : Text) : push c s = spaced s := by
  simp [push, h]

theorem push_of_not_isBlank {c : Char} (h : Text.isBlank c = false) (s : Text) :
    push c s = abut c s := by
  simp [push, h]

theorem abut_of_ne {c : Char} (h : c ≠ '>') (s : Text) : abut c s = c :: s := by
  unfold abut
  split
  · exact absurd rfl h
  · rfl

/-- Only a space that `<` follows gives way. -/
theorem abut_of_head {s : Text} (c : Char) (h : s.head? ≠ some ' ') : abut c s = c :: s := by
  unfold abut
  split
  · exact absurd rfl h
  · rfl

theorem spaced_of_head {s : Text} (h : s.head? = some ' ') : spaced s = s := by
  obtain ⟨s', rfl⟩ := List.head?_eq_some_iff.1 h
  rfl

theorem spaced_of_ne_head {s : Text} (h : s.head? ≠ some ' ') : spaced s = ' ' :: s := by
  unfold spaced
  split
  · exact absurd rfl h
  · rfl

@[simp] theorem head?_spaced (s : Text) : (spaced s).head? = some ' ' := by
  unfold spaced
  split <;> rfl

@[simp] theorem spaced_spaced (s : Text) : spaced (spaced s) = spaced s :=
  spaced_of_head (head?_spaced s)

/-! ### Settling from the right -/

theorem head?_closeGaps (s : Text) : (closeGaps s).head? = s.head? := by
  unfold closeGaps
  split <;> rfl

theorem closeGaps_of_ne {c : Char} (h : c ≠ '>') (s : Text) :
    closeGaps (c :: s) = c :: closeGaps s := by
  rw [closeGaps]
  exact fun _ hc _ => h hc

/-- A text that begins with a gap still does when its gaps are closed, and no other does. -/
theorem closeGaps_eq_gap_iff {s : Text} :
    (∃ r, closeGaps s = ' ' :: '<' :: r) ↔ ∃ r, s = ' ' :: '<' :: r := by
  constructor
  · rintro ⟨r, h⟩
    obtain ⟨s', rfl⟩ := List.head?_eq_some_iff.1 ((head?_closeGaps s).symm.trans (by rw [h]; rfl))
    rw [closeGaps_of_ne (by decide), List.cons.injEq] at h
    obtain ⟨s'', rfl⟩ := List.head?_eq_some_iff.1 ((head?_closeGaps s').symm.trans (by rw [h.2]; rfl))
    exact ⟨s'', rfl⟩
  · rintro ⟨r, rfl⟩
    exact ⟨closeGaps r, by rw [closeGaps_of_ne (by decide), closeGaps_of_ne (by decide)]⟩

theorem closeGaps_cons (c : Char) (s : Text) : closeGaps (c :: s) = abut c (closeGaps s) := by
  by_cases hc : c = '>'
  · subst hc
    by_cases hs : ∃ r, s = ' ' :: '<' :: r
    · obtain ⟨r, rfl⟩ := hs
      simp [closeGaps, abut]
    · rw [closeGaps, abut]
      · exact fun r _ h => hs (closeGaps_eq_gap_iff.1 ⟨r, h⟩)
      · exact fun r _ h => hs ⟨r, h⟩
  · rw [abut_of_ne hc, closeGaps_of_ne hc]

theorem closeGaps_spaced (s : Text) : closeGaps (spaced s) = spaced (closeGaps s) := by
  by_cases h : s.head? = some ' '
  · rw [spaced_of_head h, spaced_of_head ((head?_closeGaps s).trans h)]
  · rw [spaced_of_ne_head h, closeGaps_of_ne (by decide),
      spaced_of_ne_head (by rwa [head?_closeGaps])]

@[simp] theorem settle_nil : settle [] = [] := rfl

theorem settle_cons (c : Char) (s : Text) : settle (c :: s) = push c (settle s) := by
  by_cases h : Text.isBlank c = true
  · rw [push_of_isBlank h, settle, collapseBlanks_cons, if_pos h, closeGaps_spaced, settle]
  · rw [Bool.not_eq_true] at h
    rw [push_of_not_isBlank h, settle, collapseBlanks_of_not_isBlank h, closeGaps_cons, settle]

/-- Settling is one pass from the right. -/
theorem settle_eq_foldr (s : Text) : settle s = s.foldr push [] := by
  induction s with
  | nil => rfl
  | cons c s ih => rw [settle_cons, ih, List.foldr_cons]

theorem settle_append (s t : Text) : settle (s ++ t) = s.foldr push (settle t) := by
  rw [settle_eq_foldr, settle_eq_foldr t, List.foldr_append]

/-! ### Settling a stretch before the whole -/

/-- To put a character in front and then the rest is to put all of it in front. -/
theorem foldr_push_push (c : Char) (s z : Text) :
    (push c s).foldr push z = push c (s.foldr push z) := by
  by_cases hc : Text.isBlank c = true
  · rw [push_of_isBlank hc, push_of_isBlank hc]
    by_cases hs : s.head? = some ' '
    · obtain ⟨s', rfl⟩ := List.head?_eq_some_iff.1 hs
      rw [spaced_of_head hs, List.foldr_cons, push_of_isBlank (by decide), spaced_spaced]
    · rw [spaced_of_ne_head hs, List.foldr_cons, push_of_isBlank (by decide)]
  · rw [Bool.not_eq_true] at hc
    rw [push_of_not_isBlank hc]
    by_cases hs : c = '>' ∧ ∃ r, s = ' ' :: '<' :: r
    · obtain ⟨rfl, r, rfl⟩ := hs
      -- the space is gone on the left, and on the right it goes as soon as `>` comes
      have hlt (t : Text) : push '<' t = '<' :: t := by
        rw [push_of_not_isBlank (by decide), abut_of_ne (by decide)]
      simp only [abut, List.foldr_cons, hlt, push_of_isBlank (show Text.isBlank ' ' = true by decide)]
      rw [spaced_of_ne_head (by simp), push_of_not_isBlank hc, push_of_not_isBlank hc,
        abut_of_head _ (by simp)]
      rfl
    · have : abut c s = c :: s := by
        rw [abut]
        exact fun r hc' hs' => hs ⟨hc', r, hs'⟩
      rw [this, List.foldr_cons]

/-- Settled text goes in front of other text just as what it was settled from. -/
theorem foldr_push_settle (s z : Text) : (settle s).foldr push z = s.foldr push z := by
  induction s with
  | nil => rfl
  | cons c s ih => rw [settle_cons, foldr_push_push, ih, List.foldr_cons]

/-- A stretch may be settled before the whole text is. -/
theorem settle_append_settle (s x t : Text) :
    settle (s ++ (settle x ++ t)) = settle (s ++ (x ++ t)) := by
  rw [settle_append, settle_append, foldr_push_settle, settle_append s, settle_append x]

@[simp] theorem settle_settle (s : Text) : settle (settle s) = settle s := by
  simpa using settle_append_settle [] s []

/-! ### Texts that settle alike -/

/-- Two texts that settle alike, whatever text they stand in. -/
def Alike (s t : Text) : Prop := ∀ z, s.foldr push z = t.foldr push z

namespace Alike

theorem refl (s : Text) : Alike s s := fun _ => rfl

theorem symm {s t : Text} (h : Alike s t) : Alike t s := fun z => (h z).symm

theorem trans {s t u : Text} (h : Alike s t) (h' : Alike t u) : Alike s u :=
  fun z => (h z).trans (h' z)

theorem append {s s' t t' : Text} (hs : Alike s s') (ht : Alike t t') :
    Alike (s ++ t) (s' ++ t') := by
  intro z
  rw [List.foldr_append, List.foldr_append, ht, hs]

theorem flatMap {α : Type} {f g : α → Text} {xs : List α} (h : ∀ x ∈ xs, Alike (f x) (g x)) :
    Alike (xs.flatMap f) (xs.flatMap g) := by
  induction xs with
  | nil => exact refl _
  | cons x xs ih =>
    rw [List.flatMap_cons, List.flatMap_cons]
    exact (h x (by simp)).append (ih fun y hy => h y (List.mem_cons_of_mem x hy))

theorem settle_eq {s t : Text} (h : Alike s t) : settle s = settle t := by
  rw [settle_eq_foldr, settle_eq_foldr, h]

theorem normalizeWhitespace_eq {s t : Text} (h : Alike s t) :
    normalizeWhitespace s = normalizeWhitespace t := by
  rw [Markup.normalizeWhitespace_eq, Markup.normalizeWhitespace_eq, h.settle_eq]

end Alike

theorem alike_settle (s : Text) : Alike (settle s) s := foldr_push_settle s

/-! ### Firm characters -/

/-- Whether a character keeps its place and hinders nothing: it is no blank, `<` or `>`. -/
def isFirm (c : Char) : Bool := !Text.isBlank c && c ≠ '<' && c ≠ '>'

theorem isFirm_iff {c : Char} : isFirm c = true ↔ Text.isBlank c = false ∧ c ≠ '<' ∧ c ≠ '>' := by
  simp [isFirm, and_assoc]

theorem ne_space_of_isFirm {c : Char} (h : isFirm c = true) : c ≠ ' ' := by
  rintro rfl
  revert h
  decide

theorem push_of_isFirm {c : Char} (h : isFirm c = true) (s : Text) : push c s = c :: s := by
  obtain ⟨hb, -, hgt⟩ := isFirm_iff.1 h
  rw [push_of_not_isBlank hb, abut_of_ne hgt]

theorem settle_cons_of_isFirm {c : Char} (h : isFirm c = true) (s : Text) :
    settle (c :: s) = c :: settle s := by
  rw [settle_cons, push_of_isFirm h]

/-- What is put in front does not reach past a character that is neither a space nor `<`. -/
theorem push_append_cons {c : Char} (hspace : c ≠ ' ') (hlt : c ≠ '<') (d : Char) (s t : Text) :
    push d (s ++ c :: t) = push d s ++ c :: t := by
  by_cases hd : Text.isBlank d = true
  · rw [push_of_isBlank hd, push_of_isBlank hd]
    cases s with
    | nil =>
      rw [List.nil_append, spaced_of_ne_head (by simpa using hspace)]
      rfl
    | cons e s =>
      by_cases he : e = ' '
      · rw [spaced_of_head (by simp [he]), spaced_of_head (by simp [he])]
      · rw [spaced_of_ne_head (by simp [he]), spaced_of_ne_head (by simp [he])]
        rfl
  · rw [Bool.not_eq_true] at hd
    rw [push_of_not_isBlank hd, push_of_not_isBlank hd]
    match s with
    | [] =>
      rw [List.nil_append, abut_of_head _ (by simpa using hspace),
        abut_of_head _ (by simp)]
      rfl
    | [e] =>
      have h₁ : abut d [e] = [d, e] := by
        rw [abut]
        exact fun r _ hs => by simp at hs
      have h₂ : abut d (e :: c :: t) = d :: e :: c :: t := by
        rw [abut]
        intro r _ hs
        simp only [List.cons.injEq] at hs
        exact hlt hs.2.1
      rw [h₁, List.singleton_append, h₂]
      rfl
    | e :: f :: s =>
      by_cases hgap : d = '>' ∧ e = ' ' ∧ f = '<'
      · obtain ⟨rfl, rfl, rfl⟩ := hgap
        rfl
      · have (r : Text) : abut d (e :: f :: r) = d :: e :: f :: r := by
          rw [abut]
          intro r' hd' hs
          simp only [List.cons.injEq] at hs
          exact hgap ⟨hd', hs.1, hs.2.1⟩
        rw [this, List.cons_append, List.cons_append, this]
        rfl

/-- A text settles on either side of a firm character by itself. -/
theorem settle_append_cons {c : Char} (h : isFirm c = true) (s t : Text) :
    settle (s ++ c :: t) = settle s ++ c :: settle t := by
  obtain ⟨-, hlt, -⟩ := isFirm_iff.1 h
  induction s with
  | nil => exact settle_cons_of_isFirm h t
  | cons d s ih =>
    rw [List.cons_append, settle_cons, ih, push_append_cons (ne_space_of_isFirm h) hlt, settle_cons]

/-- A text settles in front of `>` by itself; what follows may lose a space. -/
theorem settle_append_gt (s t : Text) :
    settle (s ++ '>' :: t) = settle s ++ abut '>' (settle t) := by
  obtain ⟨z, hz⟩ : ∃ z, abut '>' (settle t) = '>' :: z := by
    unfold abut
    split
    · exact ⟨_, rfl⟩
    · exact ⟨_, rfl⟩
  induction s with
  | nil => rw [List.nil_append, settle_cons, push_of_not_isBlank (by decide)]; rfl
  | cons d s ih =>
    rw [List.cons_append, settle_cons, ih, hz, push_append_cons (by decide) (by decide), settle_cons]

theorem settle_cons_lt (s : Text) : settle ('<' :: s) = '<' :: settle s := by
  rw [settle_cons, push_of_not_isBlank (by decide), abut_of_ne (by decide)]

/-- Firm characters in front of a text stay what they are. -/
theorem settle_append_of_isFirm {s : Text} (h : ∀ c ∈ s, isFirm c = true) (t : Text) :
    settle (s ++ t) = s ++ settle t := by
  induction s with
  | nil => rfl
  | cons c s ih =>
    rw [List.cons_append, settle_cons_of_isFirm (h c (by simp)),
      ih fun d hd => h d (List.mem_cons_of_mem c hd)]
    rfl

theorem settle_of_isFirm {s : Text} (h : ∀ c ∈ s, isFirm c = true) : settle s = s := by
  simpa using settle_append_of_isFirm h []

/-- A text that settles to firm characters is settled. -/
theorem settle_eq_self_of_isFirm_settle {s : Text} (h : ∀ c ∈ settle s, isFirm c = true) :
    settle s = s := by
  induction s with
  | nil => rfl
  | cons c s ih =>
    rw [settle_cons] at h ⊢
    by_cases hc : Text.isBlank c = true
    · have := h ' ' (by
        rw [push_of_isBlank hc]
        exact List.mem_of_mem_head? (head?_spaced _))
      exact absurd rfl (ne_space_of_isFirm this)
    rw [Bool.not_eq_true] at hc
    rw [push_of_not_isBlank hc] at h ⊢
    by_cases hgt : c = '>'
    · have hmem : '>' ∈ abut c (settle s) := by
        subst hgt
        unfold abut
        split <;> simp
      exact absurd rfl (isFirm_iff.1 (h '>' hmem)).2.2
    · rw [abut_of_ne hgt] at h ⊢
      rw [ih fun d hd => h d (List.mem_cons_of_mem c hd)]

theorem mem_push {c d : Char} {s : Text} (h : c ∈ push d s) : c = ' ' ∨ c = d ∨ c ∈ s := by
  unfold push spaced abut at h
  repeat' split at h
  all_goals grind

theorem push_ne_nil (c : Char) (s : Text) : push c s ≠ [] := by
  unfold push spaced abut
  repeat' split
  all_goals simp

/-- Settling adds no character but spaces. -/
theorem mem_settle {s : Text} {c : Char} (hc : c ∈ settle s) : c = ' ' ∨ c ∈ s := by
  induction s with
  | nil => exact absurd hc List.not_mem_nil
  | cons d s ih =>
    rw [settle_cons] at hc
    rcases mem_push hc with h | h | h
    · exact Or.inl h
    · exact Or.inr (by simp [h])
    · exact (ih h).imp_right (List.mem_cons_of_mem d)

theorem settle_eq_nil_iff {s : Text} : settle s = [] ↔ s = [] := by
  cases s with
  | nil => simp
  | cons c s =>
    rw [settle_cons]
    simp [push_ne_nil]

/-- The first character is a space if it was a blank, and else what it was. -/
theorem head?_settle_cons (c : Char) (s : Text) :
    (settle (c :: s)).head? = some (if Text.isBlank c then ' ' else c) := by
  rw [settle_cons]
  split
  · next h => rw [push_of_isBlank h, head?_spaced]
  · next h =>
    rw [push_of_not_isBlank (by simpa using h)]
    unfold abut
    split <;> rfl

/-- Characters that are no blanks stay as they are in front of what does not begin with a gap. -/
theorem settle_append_of_not_isBlank {s t : Text} (hs : ∀ c ∈ s, Text.isBlank c = false)
    (ht : ∀ r, settle t ≠ ' ' :: '<' :: r) : settle (s ++ t) = s ++ settle t := by
  induction s with
  | nil => rfl
  | cons c s ih =>
    have hs' : ∀ d ∈ s, Text.isBlank d = false := fun d hd => hs d (List.mem_cons_of_mem c hd)
    rw [List.cons_append, settle_cons, push_of_not_isBlank (hs c (by simp)), ih hs']
    cases s with
    | nil =>
      rw [List.nil_append, abut]
      · rfl
      · exact fun r _ => ht r
    | cons d s =>
      have hd : d ≠ ' ' := by
        rintro rfl
        have := hs' ' ' (by simp)
        revert this
        decide
      rw [abut_of_head _ (by simpa using hd)]
      rfl

theorem settle_of_not_isBlank {s : Text} (hs : ∀ c ∈ s, Text.isBlank c = false) : settle s = s := by
  simpa using settle_append_of_not_isBlank hs (t := []) (by simp)

/-! ### The ends of a text -/

theorem trim_spaced (s : Text) : Text.trim (spaced s) = Text.trim s := by
  by_cases h : s.head? = some ' '
  · rw [spaced_of_head h]
  · rw [spaced_of_ne_head h]
    exact Text.trim_blanks_append (b := [' ']) (by simp [Text.Blanks]; decide) s

/-- Blanks at the beginning make no difference. -/
theorem normalizeWhitespace_blanks_append {b : Text} (hb : Text.Blanks b) (s : Text) :
    normalizeWhitespace (b ++ s) = normalizeWhitespace s := by
  induction b with
  | nil => rfl
  | cons c b ih =>
    rw [List.cons_append, normalizeWhitespace_eq, settle_cons, push_of_isBlank (hb c (by simp)),
      trim_spaced]
    exact ih fun d hd => hb d (List.mem_cons_of_mem c hd)

theorem settle_blanks {b : Text} (hb : Text.Blanks b) : settle b = [] ∨ settle b = [' '] := by
  induction b with
  | nil => exact Or.inl rfl
  | cons c b ih =>
    rw [settle_cons, push_of_isBlank (hb c (by simp))]
    rcases ih fun d hd => hb d (List.mem_cons_of_mem c hd) with h | h
    · exact Or.inr (by rw [h]; rfl)
    · exact Or.inr (by rw [h]; rfl)

theorem abut_append_space (c : Char) (s : Text) : abut c (s ++ [' ']) = abut c s ++ [' '] := by
  by_cases h : c = '>' ∧ ∃ r, s = ' ' :: '<' :: r
  · obtain ⟨rfl, r, rfl⟩ := h
    rfl
  · have h₁ : abut c s = c :: s := by
      rw [abut]
      exact fun r hc hs => h ⟨hc, r, hs⟩
    have h₂ : abut c (s ++ [' ']) = c :: (s ++ [' ']) := by
      rw [abut]
      intro r hc hs
      -- the gap would have to lie in `s` but for a last space, and `<` is no space
      match s with
      | [] => simp at hs
      | [d] => simp at hs
      | d :: e :: s =>
        simp only [List.cons_append, List.cons.injEq] at hs
        exact h ⟨hc, s, by rw [hs.1, hs.2.1]⟩
    rw [h₁, h₂, List.cons_append]

/-- A space at the end of a text is all that it leaves there. -/
theorem foldr_push_space (s : Text) :
    s.foldr push [' '] = settle s ∨ s.foldr push [' '] = settle s ++ [' '] := by
  induction s with
  | nil => exact Or.inr rfl
  | cons c s ih =>
    rw [List.foldr_cons, settle_cons]
    rcases ih with h | h
    · exact Or.inl (by rw [h])
    rw [h]
    by_cases hc : Text.isBlank c = true
    · rw [push_of_isBlank hc, push_of_isBlank hc]
      cases hs : settle s with
      | nil => exact Or.inl rfl
      | cons d t =>
        refine Or.inr ?_
        by_cases hd : d = ' '
        · rw [spaced_of_head (by simp [hd]), spaced_of_head (by simp [hd])]
        · rw [spaced_of_ne_head (by simp [hd]), spaced_of_ne_head (by simp [hd])]
          rfl
    · rw [Bool.not_eq_true] at hc
      exact Or.inr (by rw [push_of_not_isBlank hc, push_of_not_isBlank hc, abut_append_space])

/-- Blanks at the end make no difference. -/
theorem normalizeWhitespace_append_blanks (s : Text) {b : Text} (hb : Text.Blanks b) :
    normalizeWhitespace (s ++ b) = normalizeWhitespace s := by
  have hspace : Text.Blanks [' '] := by simp [Text.Blanks]; decide
  rw [normalizeWhitespace_eq, settle_append, normalizeWhitespace_eq]
  rcases settle_blanks hb with h | h
  · rw [h, ← settle_eq_foldr]
  · rw [h]
    rcases foldr_push_space s with hs | hs
    · rw [hs]
    · rw [hs, Text.trim_append_blanks _ hspace]

/-- Settled text is its normal form between blanks. -/
theorem exists_settle_eq (s : Text) :
    ∃ b₁ b₂, Text.Blanks b₁ ∧ Text.Blanks b₂ ∧ settle s = b₁ ++ (normalizeWhitespace s ++ b₂) :=
  Text.exists_eq_append_trim (settle s)

/-- What is put in front leaves the last character where it is. -/
theorem getLast?_push {c : Char} {s : Text} (hs : s.getLast? = some c) (d : Char) :
    (push d s).getLast? = some c := by
  have hcons (e : Char) : (e :: s).getLast? = some c := by
    cases s with
    | nil => simp at hs
    | cons f s => simpa using hs
  unfold push
  split
  · by_cases h : s.head? = some ' '
    · rwa [spaced_of_head h]
    · rw [spaced_of_ne_head h]
      exact hcons ' '
  · by_cases h : d = '>' ∧ ∃ r, s = ' ' :: '<' :: r
    · obtain ⟨rfl, r, rfl⟩ := h
      simpa [abut] using hs
    · have : abut d s = d :: s := by
        rw [abut]
        exact fun r hd hs => h ⟨hd, r, hs⟩
      rw [this]
      exact hcons d

theorem getLast?_settle {c : Char} (hc : Text.isBlank c = false) (s : Text) :
    (settle (s ++ [c])).getLast? = some c := by
  induction s with
  | nil =>
    rw [List.nil_append, settle_cons, push_of_not_isBlank hc, settle_nil, abut_of_head _ (by simp)]
    rfl
  | cons d s ih =>
    rw [List.cons_append, settle_cons]
    exact getLast?_push ih d

/-- Settling and trimming do not mind each other. -/
theorem settle_trim (s : Text) : settle (Text.trim s) = normalizeWhitespace s := by
  obtain ⟨b₁, b₂, h₁, h₂, hs⟩ := Text.exists_eq_append_trim s
  have hn : normalizeWhitespace s = normalizeWhitespace (Text.trim s) := by
    conv => lhs; rw [hs]
    rw [normalizeWhitespace_blanks_append h₁, normalizeWhitespace_append_blanks _ h₂]
  rw [hn, normalizeWhitespace_eq]
  rcases Text.trim_eq_nil_or s with h | ⟨⟨c, r, hc, hcr⟩, t, d, hd, htd⟩
  · rw [h, settle_nil, Text.trim_nil]
  · have hlast : ∃ t', settle (Text.trim s) = t' ++ [d] := by
      rw [htd]
      exact List.getLast?_eq_some_iff.1 (getLast?_settle hd t)
    have hhead : ∃ r', settle (Text.trim s) = c :: r' := by
      rw [hcr, settle_cons, push_of_not_isBlank hc]
      unfold abut
      split <;> exact ⟨_, rfl⟩
    obtain ⟨t', ht'⟩ := hlast
    obtain ⟨r', hr'⟩ := hhead
    exact (Text.trim_of_ends hc hd hr' ht').symm

/-! ### Where characters come from -/

/-- Blanks that are put in front of a text with a firm character. -/
theorem exists_eq_of_spaced {s x y : Text} {c d : Char} (hc : isFirm c = true)
    (hd : Text.isBlank d = true) (h : spaced (settle s) = x ++ c :: y)
    (ih : ∀ z, settle s = z ++ c :: y →
      ∃ x' y', s = x' ++ c :: y' ∧ settle x' = z ∧ settle y' = y) :
    ∃ x' y', d :: s = x' ++ c :: y' ∧ settle x' = x ∧ settle y' = y := by
  have hspace := ne_space_of_isFirm hc
  by_cases hs : (settle s).head? = some ' '
  · rw [spaced_of_head hs] at h
    obtain ⟨x', y', rfl, rfl, rfl⟩ := ih x h
    refine ⟨d :: x', y', rfl, ?_, rfl⟩
    rw [settle_cons, push_of_isBlank hd, spaced_of_head]
    rw [h] at hs
    cases hx : settle x' with
    | nil =>
      rw [hx] at hs
      exact absurd (by simpa using hs) hspace
    | cons e z =>
      rw [hx] at hs
      simpa using hs
  · rw [spaced_of_ne_head hs] at h
    cases x with
    | nil =>
      rw [List.nil_append, List.cons.injEq] at h
      exact absurd h.1.symm hspace
    | cons e x =>
      rw [List.cons_append, List.cons.injEq] at h
      obtain ⟨rfl, h⟩ := h
      obtain ⟨x', y', rfl, rfl, rfl⟩ := ih x h
      refine ⟨d :: x', y', rfl, ?_, rfl⟩
      rw [settle_cons, push_of_isBlank hd, spaced_of_ne_head]
      rw [h] at hs
      cases hx : settle x' with
      | nil => simp
      | cons e z =>
        rw [hx] at hs
        simpa using hs

/-- Where a firm character stands in settled text, it stood before. -/
theorem exists_eq_of_settle {s x y : Text} {c : Char} (hc : isFirm c = true)
    (h : settle s = x ++ c :: y) :
    ∃ x' y', s = x' ++ c :: y' ∧ settle x' = x ∧ settle y' = y := by
  obtain ⟨-, hlt, hgt⟩ := isFirm_iff.1 hc
  induction s generalizing x with
  | nil => simp at h
  | cons d s ih =>
    rw [settle_cons] at h
    by_cases hd : Text.isBlank d = true
    · rw [push_of_isBlank hd] at h
      exact exists_eq_of_spaced hc hd h fun z hz => ih hz
    rw [Bool.not_eq_true] at hd
    rw [push_of_not_isBlank hd] at h
    by_cases hgap : d = '>' ∧ ∃ r, settle s = ' ' :: '<' :: r
    · -- the gap that closes here is in front of the firm character
      obtain ⟨rfl, r, hr⟩ := hgap
      rw [hr, abut] at h
      obtain ⟨z, rfl, rfl⟩ : ∃ z, x = '>' :: '<' :: z ∧ r = z ++ c :: y := by
        match x with
        | [] => exact absurd (List.cons.inj h).1.symm hgt
        | [_] => exact absurd (List.cons.inj (List.cons.inj h).2).1.symm hlt
        | e :: f :: z =>
          simp only [List.cons_append, List.cons.injEq] at h
          exact ⟨z, by rw [h.1, h.2.1], h.2.2⟩
      obtain ⟨x', y', rfl, hx, rfl⟩ := ih (x := ' ' :: '<' :: z) hr
      exact ⟨'>' :: x', y', rfl, by rw [settle_cons, push_of_not_isBlank hd, hx, abut], rfl⟩
    · have habut (z : Text) (hz : ∀ r, z = ' ' :: '<' :: r → ∃ r', settle s = ' ' :: '<' :: r') :
          abut d z = d :: z := by
        unfold abut
        split
        · next r => exact absurd ⟨rfl, hz r rfl⟩ hgap
        · rfl
      rw [habut _ fun r hr => ⟨r, hr⟩] at h
      cases x with
      | nil =>
        rw [List.nil_append, List.cons.injEq] at h
        obtain ⟨rfl, rfl⟩ := h
        exact ⟨[], s, rfl, rfl, rfl⟩
      | cons e x =>
        rw [List.cons_append, List.cons.injEq] at h
        obtain ⟨rfl, h⟩ := h
        obtain ⟨x', y', rfl, rfl, rfl⟩ := ih h
        refine ⟨d :: x', y', rfl, ?_, rfl⟩
        rw [settle_cons, push_of_not_isBlank hd, habut _ fun r hr => ⟨r ++ c :: settle y', by rw [h, hr]; rfl⟩]

/-- Settling takes away nothing but blanks. -/
theorem mem_settle_of_mem {s : Text} {c : Char} (hc : Text.isBlank c = false) (h : c ∈ s) :
    c ∈ settle s := by
  have hspace : c ≠ ' ' := by
    rintro rfl
    exact absurd hc (by decide)
  induction s with
  | nil => cases h
  | cons d s ih =>
    rw [settle_cons]
    rcases List.mem_cons.1 h with rfl | h
    · rw [push_of_not_isBlank hc]
      unfold abut
      split <;> simp
    · have ih := ih h
      unfold push spaced abut
      repeat' split
      all_goals simp_all

end MaskedViews.Markup
