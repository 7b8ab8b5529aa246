import MaskedViews.Json.Path
import MaskedViews.Text.Blank

/-!
# Conditions

The condition of an `#if` block compares the text at a path with a literal in single quotes, or
asks whether the text at a path counts as true. There is no composition. Anything else is kept as
it was written and never holds.

A path in a condition is any stretch of characters other than blanks, `=`, `!`, single quotes and
braces. The literal is kept as it stands between its quotes, blanks included, and blanks around
the operator and around the whole expression mean nothing.
-/

namespace MaskedViews

/-- The condition of a block. -/
inductive Condition where
  /-- The text at the path is the literal. -/
  | equals (path literal : Text)
  /-- The text at the path is not the literal. -/
  | notEquals (path literal : Text)
  /-- The text at the path counts as true. -/
  | truthy (path : Text)
  /-- No condition; it never holds. -/
  | invalid (expr : Text)
  deriving DecidableEq, Repr

/-- Whether a text counts as true: it is neither empty nor the word `false`. -/
def isTruthy (s : Text) : Bool := s ≠ [] && s ≠ "false".toList

namespace Condition

/-- The characters of a path in a condition. -/
def isPathChar (c : Char) : Bool :=
  !Text.isBlank c && c ≠ '=' && c ≠ '!' && c ≠ '\'' && c ≠ '{' && c ≠ '}'

/-- Reads a literal in single quotes that is the whole text. -/
def readLiteral? : Text → Option Text
  | '\'' :: s => if s.dropWhile (· ≠ '\'') = ['\''] then some (s.takeWhile (· ≠ '\'')) else none
  | _ => none

/-- Reads what may follow a path: an operator and a literal. -/
def readComparison? (path s : Text) : Option Condition :=
  match Text.trimStart s with
  | '=' :: '=' :: r => (readLiteral? (Text.trimStart r)).map (equals path)
  | '!' :: '=' :: r => (readLiteral? (Text.trimStart r)).map (notEquals path)
  | _ => none

/-- Reads an expression without blanks at its ends. -/
def readTrimmed (expr : Text) : Condition :=
  let path := expr.takeWhile isPathChar
  let r := expr.dropWhile isPathChar
  if path = [] then invalid expr
  else if r = [] then truthy path
  else (readComparison? path r).getD (invalid expr)

/-- Reads an expression. -/
def parse (expr : Text) : Condition := readTrimmed (Text.trim expr)

/-- Whether a condition holds of a record. -/
def holds (data : Json) : Condition → Bool
  | equals path literal => data.resolve path = literal
  | notEquals path literal => data.resolve path ≠ literal
  | truthy path => isTruthy (data.resolve path)
  | invalid _ => false

end Condition

end MaskedViews
