import MaskedViews.Text.Basic

/-!
# Escaping

A value that is shown in markup has its five significant characters replaced by entities, each
character once and from left to right. An ampersand of an entity is therefore never escaped again
within one call, but escaping a text twice escapes its ampersands twice.
-/

namespace MaskedViews.Text

/-- What stands for a character in escaped text. -/
def entity : Char → Text
  | '&' => "&amp;".toList
  | '<' => "&lt;".toList
  | '>' => "&gt;".toList
  | '"' => "&quot;".toList
  | '\'' => "&#39;".toList
  | c => [c]

/-- The text with its significant characters replaced by entities. -/
def escape (s : Text) : Text := s.flatMap entity

@[simp] theorem escape_nil : escape [] = [] := rfl

@[simp] theorem escape_cons (c : Char) (s : Text) : escape (c :: s) = entity c ++ escape s := rfl

@[simp] theorem escape_append (s t : Text) : escape (s ++ t) = escape s ++ escape t := by
  simp [escape]

/-- Escapes a text that may be missing; a missing one is empty. -/
def escapeOptional (s : Option Text) : Text := (s.map escape).getD []

end MaskedViews.Text
