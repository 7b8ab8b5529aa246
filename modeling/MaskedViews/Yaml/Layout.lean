import MaskedViews.Yaml.BlockScalar
import MaskedViews.Yaml.Plain
import MaskedViews.Yaml.Quoted
import MaskedViews.Yaml.Token

/-!
# The layout of a YAML text

Cutting a text into tokens (`tokens?`) has to know about columns, since they alone tell where blocks
begin and end.

A mapping mostly shows only when the colon after its first key is met. So wherever a key may begin,
that place is kept, and a colon that comes soon enough, on the same line and within 1024 bytes, puts
the token of the key in there, and that of the mapping if its column begins one. There is such a
place for the blocks and one for each open bracket. In the column of a block mapping nothing but a
key may begin.

Directives, anchors, aliases and tags are not part of the form.
-/

namespace MaskedViews.Yaml

/-- A place where a key may have begun that no mark announces. -/
structure KeyPlace extends Place where
  /-- The number of tokens before it. -/
  before : Nat
  /-- Whether nothing but a key may begin there. -/
  required : Bool

/-- The most bytes that a key without a mark may have, with all that stands before its colon. -/
def longestKey : Nat := 1024

/-- Whether a place is out of reach of a colon at a cursor. -/
def KeyPlace.isPast (place : KeyPlace) (cur : Cursor) : Bool :=
  place.line < cur.line || place.offset + longestKey < cur.offset

/-- A place as it is at a cursor, if there is one; it may not pass if a key is required. -/
def KeyPlace.keep? (cur : Cursor) : Option KeyPlace → Option (Option KeyPlace)
  | none => some none
  | some place =>
    if place.isPast cur then if place.required then none else some none
    else some (some place)

/-- How far a text has been cut. -/
structure Layout where
  /-- What is left, and where. -/
  cur : Cursor
  /-- The tokens so far, the latest first. -/
  tokens : List Token := []
  /-- The columns of the open blocks, innermost first. -/
  columns : List Nat := []
  /-- The place of a key inside the innermost open bracket, or in the blocks if none is open. -/
  place : Option KeyPlace := none
  /-- The places around the open brackets, innermost first: one for each. -/
  outer : List (Option KeyPlace) := []
  /-- Whether a key may begin here. -/
  keyAllowed : Bool := true

namespace Layout

/-- Whether a bracket is open. -/
def inBrackets (l : Layout) : Bool := !l.outer.isEmpty

/-- The column of the innermost open block. -/
def parent (l : Layout) : Option Nat := l.columns.head?

/-- The least column of what is inside the innermost open block. -/
def indent (l : Layout) : Nat := (l.parent.map (· + 1)).getD 0

/-- Adds a token. -/
def emit (token : Token) (l : Layout) : Layout := { l with tokens := token :: l.tokens }

/-- Adds the token of the next `n` characters. -/
def emitMark (token : Token) (n : Nat) (l : Layout) : Layout :=
  { l with tokens := token :: l.tokens, cur := l.cur.advance n }

/-- Puts a token in after the first `before` ones. -/
def insertToken (before : Nat) (token : Token) (l : Layout) : Layout :=
  let late := l.tokens.length - before
  { l with tokens := l.tokens.take late ++ token :: l.tokens.drop late }

/-! ### Blocks -/

/-- Opens a block after the first `before` tokens, unless its column is that of the innermost one.
Inside brackets there are no blocks. -/
def openBlock (token : Token) (column before : Nat) (l : Layout) : Layout :=
  if l.inBrackets || l.parent.any (column ≤ ·) then l
  else { l.insertToken before token with columns := column :: l.columns }

/-- Closes the innermost blocks at columns of a class. -/
def closeBlocks (closed : Nat → Bool) (l : Layout) : Layout :=
  if l.inBrackets then l
  else
    let left := l.columns.dropWhile closed
    { l with
      columns := left
      tokens := List.replicate (l.columns.length - left.length) .blockEnd ++ l.tokens }

/-! ### Places of keys -/

/-- Gives up the place of a key, which may not be one that is required. -/
def dropPlace? (l : Layout) : Option Layout :=
  if l.place.any KeyPlace.required then none else some { l with place := none }

/-- Keeps the place of the next token if a key may begin there. -/
def keepPlace? (l : Layout) : Option Layout :=
  if l.keyAllowed then
    l.dropPlace?.map fun l =>
      { l with
        place := some {
          toPlace := l.cur.toPlace
          before := l.tokens.length
          required := !l.inBrackets && l.parent = some l.cur.column } }
  else some l

/-! ### Tokens -/

/-- Goes to the next token: blocks that it is left of end, and places out of reach are given up. -/
def skip? (l : Layout) : Option Layout :=
  let cur := l.cur.skip l.inBrackets (l.inBrackets || !l.keyAllowed)
  (KeyPlace.keep? cur l.place).bind fun place =>
    (l.outer.mapM (KeyPlace.keep? cur)).map fun outer =>
      closeBlocks (cur.column < ·)
        { l with
          cur := cur
          place := place
          outer := outer
          keyAllowed := l.keyAllowed || (!l.inBrackets && l.cur.line < cur.line) }

/-- Reads a mark between documents, which ends every block. -/
def marker? (token : Token) (l : Layout) : Option Layout :=
  (l.closeBlocks fun _ => true).dropPlace?.map fun l =>
    { l with keyAllowed := false }.emitMark token 3

/-- Reads an opening bracket. -/
def openBracket? (token : Token) (l : Layout) : Option Layout :=
  l.keepPlace?.map fun l =>
    { l with place := none, outer := l.place :: l.outer, keyAllowed := true }.emitMark token 1

/-- Reads a closing bracket. -/
def closeBracket? (token : Token) (l : Layout) : Option Layout :=
  l.dropPlace?.map fun l =>
    { l with
      place := l.outer.head?.join
      outer := l.outer.drop 1
      keyAllowed := false }.emitMark token 1

/-- Reads a comma. -/
def comma? (l : Layout) : Option Layout :=
  l.dropPlace?.map fun l => { l with keyAllowed := true }.emitMark .comma 1

/-- Reads the dash of an item, which stands only where a key could begin. -/
def item? (l : Layout) : Option Layout :=
  if l.inBrackets || !l.keyAllowed then none
  else
    (l.openBlock .blockSequence l.cur.column l.tokens.length).dropPlace?.map fun l =>
      { l with keyAllowed := true }.emitMark .item 1

/-- Reads the question mark of a key. -/
def key? (l : Layout) : Option Layout :=
  if l.inBrackets || l.keyAllowed then
    (l.openBlock .blockMapping l.cur.column l.tokens.length).dropPlace?.map fun l =>
      { l with keyAllowed := !l.inBrackets }.emitMark .key 1
  else none

/-- Reads the colon of a value: that of the key whose place is kept, or else of one before it. -/
def value? (l : Layout) : Option Layout :=
  match l.place with
  | some place =>
    let l := (l.insertToken place.before .key).openBlock .blockMapping place.column place.before
    some ({ l with place := none, keyAllowed := false }.emitMark .value 1)
  | none =>
    if l.inBrackets then some ({ l with keyAllowed := false }.emitMark .value 1)
    else if l.keyAllowed then
      some ((l.openBlock .blockMapping l.cur.column l.tokens.length).emitMark .value 1)
    else none

/-- Reads a block scalar. A key may begin behind it. -/
def blockScalar? (l : Layout) : Option Layout :=
  l.dropPlace?.bind fun l =>
    (readBlock? l.parent l.cur).map fun (s, cur) =>
      { l with cur := cur, keyAllowed := true }.emit (.scalar false s)

/-- Reads a quoted scalar. -/
def quoted? (l : Layout) : Option Layout :=
  l.keepPlace?.bind fun l =>
    (readQuoted? l.cur).map fun (s, cur) =>
      { l with cur := cur, keyAllowed := false }.emit (.scalar false s)

/-- Reads a plain scalar. A key may begin behind it on another line. -/
def plain? (l : Layout) : Option Layout :=
  l.keepPlace?.bind fun l =>
    (readPlain? l.inBrackets l.indent l.cur).map fun scalar =>
      { l with cur := scalar.after, keyAllowed := scalar.gap.hasBreak }.emit
        (.scalar true scalar.text)

/-- Reads the token at the cursor. -/
def next? (l : Layout) : Option Layout :=
  match l.cur.rest with
  | [] => none
  | c :: s =>
    if l.cur.atMarker then l.marker? (if c = '-' then .documentStart else .documentEnd)
    else if c = '[' then l.openBracket? .openSequence
    else if c = '{' then l.openBracket? .openMapping
    else if c = ']' then l.closeBracket? .closeSequence
    else if c = '}' then l.closeBracket? .closeMapping
    else if c = ',' then l.comma?
    else if c = '-' ∧ beginsBlank s then l.item?
    else if c = '?' ∧ (l.inBrackets ∨ beginsBlank s) then l.key?
    else if c = ':' ∧ (l.inBrackets ∨ beginsBlank s) then l.value?
    else if (c = '|' ∨ c = '>') ∧ !l.inBrackets then l.blockScalar?
    else if c = '"' ∨ c = '\'' then l.quoted?
    else if beginsPlain l.inBrackets (c :: s) then l.plain?
    else none

/-- The tokens when nothing is left: every block ends. -/
def finish? (l : Layout) : Option (List Token) :=
  (l.closeBlocks fun _ => true).dropPlace?.map fun l => l.tokens.reverse

/-- Reads what is left, at most `steps` tokens. -/
def run? : (steps : Nat) → Layout → Option (List Token)
  | 0, _ => none
  | steps + 1, l =>
    l.skip?.bind fun l =>
      if l.cur.rest = [] then l.finish? else l.next?.bind fun l => l.run? steps

end Layout

/-- The tokens of a text. Each takes a character, so the length of the text bounds the steps. -/
def tokens? (s : Text) : Option (List Token) :=
  ({ cur := Cursor.start s } : Layout).run? (s.length + 1)

end MaskedViews.Yaml
