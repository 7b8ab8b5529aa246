import MaskedViews.Yaml.Cursor

/-!
# Gaps in scalars

A plain or a quoted scalar may run over several lines. Between two characters of it that count
stands a gap: blanks on one line, or line breaks with blanks around them that do not count. A single
line feed counts as a space, and of more breaks the first is left out if it is a line feed. A break
that was taken away by a backslash counts for nothing.
-/

namespace MaskedViews.Yaml

/-- What has been read since the last character that counts. -/
inductive Gap where
  /-- Blanks on a line. -/
  | blanks (s : Text)
  /-- The first break, empty if it was taken away, and the breaks after it. -/
  | breaks (first more : Text)
  deriving DecidableEq

namespace Gap

/-- The gap between two characters side by side. -/
def empty : Gap := .blanks []

/-- The gap after a break that is taken away. -/
def joined : Gap := .breaks [] []

/-- The gap with one more blank or break. -/
def add (c : Char) : Gap → Gap
  | .blanks s => if isBreak c then .breaks [c] [] else .blanks (s ++ [c])
  | .breaks first more => if isBreak c then .breaks first (more ++ [c]) else .breaks first more

/-- Whether a gap goes on to another line. -/
def hasBreak : Gap → Bool
  | .blanks _ => false
  | .breaks _ _ => true

/-- The text that a gap counts for. -/
def text : Gap → Text
  | .blanks s => s
  | .breaks first more =>
    if first = ['\n'] then if more = [] then [' '] else more else first ++ more

@[simp] theorem text_empty : empty.text = [] := rfl

@[simp] theorem text_joined : joined.text = [] := rfl

end Gap

end MaskedViews.Yaml
