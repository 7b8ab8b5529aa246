import MaskedViews.Text.Basic

/-!
# Places in a YAML text

Blocks are told apart by the columns in which they begin, so a reader keeps the line and the column
of what is left. The line feed and the separators of lines and paragraphs end a line.

Between the parts of a document stand spaces, line breaks and comments. A tab may stand there only
where no key can begin, or inside brackets: as indentation it is no blank. A byte order mark may
stand at the beginning of a line, where it takes a column.
-/

namespace MaskedViews.Yaml

/-! ### Classes of characters -/

/-- Whether a character is a space or a tab. -/
def isInlineBlank (c : Char) : Bool := c = ' ' || c = '\t'

/-- Whether a character ends a line. -/
def isBreak (c : Char) : Bool := c = '\n' || c = '\u2028' || c = '\u2029'

/-- Whether a text begins with a space, a tab or a line break, or is empty. -/
def beginsBlank (s : Text) : Bool := s.head?.all fun c => isInlineBlank c || isBreak c

/-- Whether a line begins with the mark between documents, or the one after a document. -/
def beginsMarker (s : Text) : Bool :=
  match s with
  | '-' :: '-' :: '-' :: r => beginsBlank r
  | '.' :: '.' :: '.' :: r => beginsBlank r
  | _ => false

/-- The byte order mark. -/
def byteOrderMark : Char := '\ufeff'

/-! ### Places and cursors -/

/-- A place in a text. -/
structure Place where
  /-- The number of lines before. -/
  line : Nat
  /-- The number of characters before on the same line. -/
  column : Nat
  /-- The number of bytes before. -/
  offset : Nat

/-- The place after a character. -/
def Place.after (place : Place) (c : Char) : Place :=
  if isBreak c then ⟨place.line + 1, 0, place.offset + c.utf8Size⟩
  else ⟨place.line, place.column + 1, place.offset + c.utf8Size⟩

/-- What is left of a text, and the place where it begins. -/
structure Cursor extends Place where
  /-- The text that is left. -/
  rest : Text

namespace Cursor

/-- The cursor at the beginning of a text. -/
def start (s : Text) : Cursor := ⟨⟨0, 0, 0⟩, s⟩

/-- The cursor at a later point, where `rest` is left. -/
def moveTo (cur : Cursor) (rest : Text) : Cursor :=
  ⟨(cur.rest.take (cur.rest.length - rest.length)).foldl Place.after cur.toPlace, rest⟩

/-- The cursor after the next `n` characters. -/
def advance (cur : Cursor) (n : Nat) : Cursor := cur.moveTo (cur.rest.drop n)

/-- Whether a mark between or after documents stands here. -/
def atMarker (cur : Cursor) : Bool := cur.column = 0 && beginsMarker cur.rest

/-- Passes blanks, breaks and comments. `tabs` says whether tabs count on this line and `brackets`
whether they count on every line; `comment` whether a comment has begun. -/
def skipFrom (brackets tabs comment : Bool) (place : Place) : Text → Cursor
  | [] => ⟨place, []⟩
  | c :: s =>
    if isBreak c then skipFrom brackets brackets false (place.after c) s
    else if comment then skipFrom brackets tabs true (place.after c) s
    else if c = ' ' ∨ (c = '\t' ∧ tabs) ∨ (c = byteOrderMark ∧ place.column = 0) then
      skipFrom brackets tabs false (place.after c) s
    else if c = '#' then skipFrom brackets tabs true (place.after c) s
    else ⟨place, c :: s⟩

/-- The next thing after blanks, breaks and comments. -/
def skip (cur : Cursor) (brackets tabs : Bool) : Cursor :=
  skipFrom brackets tabs false cur.toPlace cur.rest

end Cursor

end MaskedViews.Yaml
