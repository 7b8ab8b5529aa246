import MaskedViews.Proofs.Markup.PlainFlags

/-!
# Loose ends

Giving a tag its flags takes the blanks out in front of its end. A second time there is nothing left to
do (`withFlags_of_isFlagged`), unless a stray slash has been in front of these blanks: without them and
without any flags behind it, the slash is that of `/>`, and if there are blanks in front of it too, it is
these that are taken out next.
-/

namespace MaskedViews.StartTag

/-- Whether a tag that does not close itself has a slash with blanks on both sides at its end. -/
def endsLoosely (t : StartTag) : Bool :=
  !t.selfClosing &&
    match (Text.trimEnd t.trail).reverse with
    | '/' :: b :: _ => Text.isBlank b
    | _ => false

/-- A tag with some flags and no blanks at its end. -/
structure IsFlagged (t : StartTag) (flags : List Text) : Prop where
  /-- The flags are there. -/
  has : ∀ flag ∈ flags, t.hasAttribute flag = true
  /-- Nothing is left to trim. -/
  trail : Text.trimEnd t.trail = t.trail

variable {t u : StartTag} {flags : List Text}

theorem trimEnd_of_not_endsLoosely {s : Text} (h : t.endsLoosely = false)
    (hclosing : t.selfClosing = false) (hs : Text.trimEnd t.trail = s ++ ['/']) :
    Text.trimEnd s = s := by
  cases s using List.reverseRecOn with
  | nil => rfl
  | append_singleton s b =>
    have hb : Text.isBlank b = false := by simpa [endsLoosely, hclosing, hs] using h
    exact Text.trimEnd_of_last s hb

theorem has_of_missing_eq_nil (h : t.missing flags = []) :
    ∀ flag ∈ flags, t.hasAttribute flag = true :=
  fun flag hflag => by simpa using List.filter_eq_nil_iff.1 h flag hflag

/-- A tag that has got its flags has no blanks at its end, unless it had them all and ended loosely. -/
theorem isFlagged_of_trail
    (h : (∀ flag ∈ flags, t.hasAttribute flag = true) → t.endsLoosely = false)
    (has : ∀ flag ∈ flags, u.hasAttribute flag = true)
    (hu : u.trail = [] ∨ u.trail = Text.trimEnd t.trail ∨ t.missing flags = [] ∧
      t.selfClosing = false ∧ Text.trimEnd t.trail = u.trail ++ ['/']) : u.IsFlagged flags := by
  refine ⟨has, ?_⟩
  rcases hu with hnil | htrim | ⟨hmissing, hclosing, hslash⟩
  · rw [hnil]
    rfl
  · rw [htrim, Text.trimEnd_trimEnd]
  · exact trimEnd_of_not_endsLoosely (h (has_of_missing_eq_nil hmissing)) hclosing hslash

/-- Settling puts no blank at the end. -/
theorem IsFlagged.settled (h : t.IsFlagged flags) : t.settled.IsFlagged flags := by
  refine ⟨fun flag hflag => by rw [hasAttribute_settled, h.has flag hflag], ?_⟩
  show Text.trimEnd (Markup.settle t.trail) = Markup.settle t.trail
  rcases Text.trimEnd_eq_nil_or t.trail with hnil | ⟨s, c, hc, hs⟩
  · rw [← h.trail, hnil]
    rfl
  · rw [h.trail] at hs
    obtain ⟨x, hx⟩ := List.getLast?_eq_some_iff.1 (Markup.getLast?_settle hc s)
    rw [hs, hx, Text.trimEnd_of_last x hc]

/-- **Flags that are there already change nothing.** -/
theorem withFlags_of_isFlagged (ht : t.Legible) (hp : t.IsSolid) (hopen : t.isOpen = false)
    (hunslashed : t.Unslashed)
    (hend : ∀ a ∈ t.attributes.getLast?, ∀ v ∈ a.assigned, v.quoting = .bare → t.selfClosing = false)
    (hflags : ∀ flag ∈ flags, IsWord flag) (h : t.IsFlagged flags) : t.withFlags flags = t.source := by
  have hmissing : t.missing flags = [] :=
    List.filter_eq_nil_iff.2 fun flag hflag => by simp [h.has flag hflag]
  obtain ⟨htrim, -⟩ := attributesFit_missing ht hp hopen (fun _ => hend) hflags
  rw [source_withFlags ht hunslashed, htrim, hmissing, h.trail, source]
  simp

end MaskedViews.StartTag
