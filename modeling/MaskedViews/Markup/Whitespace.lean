import MaskedViews.Text.Blank

/-!
# Whitespace

Normalized markup has one space for every stretch of blanks, none between the end of a tag and the
beginning of the next, and none at its ends.
-/

namespace MaskedViews.Markup

/-- Puts a space before a text that does not begin with one. -/
def spaced : Text → Text
  | ' ' :: s => ' ' :: s
  | s => ' ' :: s

/-- The text with every stretch of blanks made one space. -/
def collapseBlanks : Text → Text
  | [] => []
  | c :: s => if Text.isBlank c then spaced (collapseBlanks s) else c :: collapseBlanks s

/-- The text without the single spaces between `>` and `<`. -/
def closeGaps : Text → Text
  | '>' :: ' ' :: '<' :: s => '>' :: closeGaps ('<' :: s)
  | c :: s => c :: closeGaps s
  | [] => []

/-- The text with its blanks in normal form. -/
def normalizeWhitespace (s : Text) : Text := Text.trim (closeGaps (collapseBlanks s))

@[simp] theorem collapseBlanks_nil : collapseBlanks [] = [] := rfl

theorem collapseBlanks_cons (c : Char) (s : Text) :
    collapseBlanks (c :: s) =
      if Text.isBlank c then spaced (collapseBlanks s) else c :: collapseBlanks s := rfl

/-- A character that is no blank stays where it is. -/
theorem collapseBlanks_of_not_isBlank {c : Char} (h : Text.isBlank c = false) (s : Text) :
    collapseBlanks (c :: s) = c :: collapseBlanks s := by
  simp [collapseBlanks_cons, h]

end MaskedViews.Markup
