import MaskedViews.Yaml.Gap

/-!
# Plain scalars

A scalar without quotes ends before a comment, before a colon that a blank follows and, inside
brackets, before a comma or a bracket. It may run over several lines: outside brackets a line goes
on with it only if it begins right of the block that the scalar is in, and a mark between documents
ends it. Left of the block tabs cannot stand on its further lines, even if nothing else does.
-/

namespace MaskedViews.Yaml

/-- The characters that begin something else than a plain scalar. -/
def indicators : Text := "-?:,[]#&*!|>'\"%@`".toList ++ ['{', '}']

/-- The characters that end a plain scalar inside brackets. -/
def bracketIndicators : Text := ",[]".toList ++ ['{', '}']

/-- Whether a plain scalar begins here. A dash, and outside brackets a question mark or a colon,
may begin one if no blank follows. -/
def beginsPlain (brackets : Bool) : Text → Bool
  | [] => false
  | c :: s =>
    if c = '-' then !beginsBlank s
    else if c = '?' ∨ c = ':' then !brackets && !beginsBlank s
    else !indicators.contains c && !isInlineBlank c && !isBreak c

/-- Whether a character ends a plain scalar, by what follows it. -/
def endsPlain (brackets : Bool) (c : Char) (s : Text) : Bool :=
  (c = ':' && beginsBlank s) || (brackets && bracketIndicators.contains c)

/-- Whether a colon stands inside brackets where none can. -/
def isStrayColon (brackets : Bool) (c : Char) (s : Text) : Bool :=
  brackets && c = ':' && s.head?.any fun d => d = '?' || bracketIndicators.contains d

/-- Whether a plain scalar cannot go on after a gap: outside brackets left of the column `indent`,
and everywhere at a comment or a mark between documents. -/
def endsAtGap (brackets : Bool) (indent column : Nat) (s : Text) : Bool :=
  (!brackets && column < indent) || s.head? = some '#' || (column = 0 && beginsMarker s)

/-- A plain scalar that has been read. -/
structure PlainScalar where
  /-- Its text. -/
  text : Text
  /-- The gap behind it. -/
  gap : Gap
  /-- What follows the gap. -/
  after : Cursor

/-- Reads what is left of a plain scalar after a gap. -/
def plainFrom? (brackets : Bool) (indent : Nat) (gap : Gap) (place : Place) :
    Text → Option PlainScalar
  | [] => some ⟨[], gap, ⟨place, []⟩⟩
  | c :: s =>
    if isBreak c then plainFrom? brackets indent (gap.add c) (place.after c) s
    else if isInlineBlank c then
      if c = '\t' ∧ gap.hasBreak ∧ place.column < indent then none
      else plainFrom? brackets indent (gap.add c) (place.after c) s
    else if gap ≠ .empty ∧ endsAtGap brackets indent place.column (c :: s) then
      some ⟨[], gap, ⟨place, c :: s⟩⟩
    else if isStrayColon brackets c s then none
    else if endsPlain brackets c s then some ⟨[], gap, ⟨place, c :: s⟩⟩
    else
      (plainFrom? brackets indent .empty (place.after c) s).map fun scalar =>
        { scalar with text := gap.text ++ c :: scalar.text }

/-- Reads a plain scalar in a block whose content begins at the column `indent`, or in brackets. -/
def readPlain? (brackets : Bool) (indent : Nat) (cur : Cursor) : Option PlainScalar :=
  plainFrom? brackets indent .empty cur.toPlace cur.rest

end MaskedViews.Yaml
