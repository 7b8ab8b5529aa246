import MaskedViews.Text.Basic

/-!
# YAML tokens

A YAML text is a row of scalars, brackets and marks. Blocks have no brackets of their own, so there
are tokens for their beginnings and ends, and tokens tell the structure of a text without regard to
lines and columns. Nodes may be left out in many places; the classes of tokens below say which token
shows that one is.
-/

namespace MaskedViews.Yaml

/-- A token of a YAML text. -/
inductive Token where
  /-- A scalar, and whether it was written plain. -/
  | scalar (plain : Bool) (s : Text)
  /-- A block sequence begins. -/
  | blockSequence
  /-- A block mapping begins. -/
  | blockMapping
  /-- A block ends. -/
  | blockEnd
  /-- An item of a block sequence begins. -/
  | item
  /-- A key begins. -/
  | key
  /-- The value of a key begins. -/
  | value
  /-- A sequence in brackets begins. -/
  | openSequence
  /-- A sequence in brackets ends. -/
  | closeSequence
  /-- A mapping in brackets begins. -/
  | openMapping
  /-- A mapping in brackets ends. -/
  | closeMapping
  /-- A comma inside brackets. -/
  | comma
  /-- The mark before a document. -/
  | documentStart
  /-- The mark after a document. -/
  | documentEnd
  deriving DecidableEq

/-! ### What follows a node that is left out -/

namespace Token

/-- Whether a token can follow an item of a block sequence that is left out. -/
def endsItem : Token → Bool
  | .item | .blockEnd => true
  | _ => false

/-- Whether a token can follow a key or a value of a block mapping that is left out. -/
def endsEntry : Token → Bool
  | .key | .value | .blockEnd => true
  | _ => false

/-- Whether a token can follow an item that is left out, in a sequence that has no tokens of its
own. -/
def endsLooseItem (token : Token) : Bool := token.endsEntry || token.endsItem

/-- Whether a token can follow a value that is left out in a sequence in brackets. -/
def endsInSequence : Token → Bool
  | .comma | .closeSequence => true
  | _ => false

/-- Whether a token can stand for a key that is left out in a sequence in brackets. -/
def endsKeyInSequence (token : Token) : Bool := token = .value || token.endsInSequence

/-- Whether a token can follow a value that is left out in a mapping in brackets. -/
def endsInMapping : Token → Bool
  | .comma | .closeMapping => true
  | _ => false

/-- Whether a token can follow a key that is left out in a mapping in brackets. -/
def endsKeyInMapping (token : Token) : Bool := token = .value || token.endsInMapping

/-- Whether a token can follow a document whose node is left out. -/
def endsDocument : Token → Bool
  | .documentStart | .documentEnd => true
  | _ => false

end Token

end MaskedViews.Yaml
