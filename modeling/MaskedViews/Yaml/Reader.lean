import MaskedViews.Yaml.Layout
import MaskedViews.Yaml.Node

/-!
# Reading YAML documents

`read?` reads a text that holds one document or none. Once the text is cut into tokens, sequences
and mappings, in blocks or in brackets, are bracketed alike, and reading them is a recursion on the
tokens. A node may be left out where the next token shows that there is none: an item, a key behind
a question mark, a value. A block sequence may stand in a mapping without a column of its own; then
no token says where it begins and ends, but its items show it.
-/

namespace MaskedViews.Yaml

/-- Where a node stands, which decides how it may be written. -/
inductive Site where
  /-- Inside brackets. No block may begin there. -/
  | brackets
  /-- In a block sequence, or on its own. -/
  | block
  /-- In a block mapping. A block sequence needs no tokens of its own there. -/
  | entry
  deriving DecidableEq

mutual

/-- Reads a node. -/
def readNode? (steps : Nat) (site : Site) (ts : List Token) : Option (Yaml × List Token) :=
  match steps with
  | 0 => none
  | steps + 1 =>
    match ts with
    | .scalar plain s :: r => some (.scalar plain s, r)
    | .openSequence :: r => (readItems? steps r).map fun (items, r) => (.sequence items, r)
    | .openMapping :: r => (readPairs? steps r).map fun (entries, r) => (.mapping entries, r)
    | .blockSequence :: r =>
      if site = .brackets then none
      else (readBlockItems? steps r).map fun (items, r) => (.sequence items, r)
    | .blockMapping :: r =>
      if site = .brackets then none
      else (readBlockEntries? steps r).map fun (entries, r) => (.mapping entries, r)
    | .item :: _ =>
      if site = .entry then (readLooseItems? steps ts).map fun (items, r) => (.sequence items, r)
      else none
    | _ => none

/-- Reads a node that is left out before tokens of a class. -/
def readOptional? (steps : Nat) (site : Site) (ends : Token → Bool) (ts : List Token) :
    Option (Yaml × List Token) :=
  match steps with
  | 0 => none
  | steps + 1 => if ts.head?.any ends then some (absent, ts) else readNode? steps site ts

/-- Reads the value of an entry, if there is one; it is left out before tokens of a class. -/
def readValue? (steps : Nat) (site : Site) (ends : Token → Bool) (ts : List Token) :
    Option (Yaml × List Token) :=
  match steps with
  | 0 => none
  | steps + 1 =>
    match ts with
    | .value :: r => readOptional? steps site ends r
    | _ => some (absent, ts)

/-- Reads the key of an entry in a sequence in brackets. If it is left out, the token that shows it
stands for the key and is passed, be it the colon of the value or the end of the sequence. -/
def readItemKey? (steps : Nat) (ts : List Token) : Option (Yaml × List Token) :=
  match steps with
  | 0 => none
  | steps + 1 =>
    match ts with
    | [] => none
    | t :: r => if t.endsKeyInSequence then some (absent, r) else readNode? steps .brackets ts

/-- Reads an item of a sequence in brackets; an entry among them is a mapping of its own. -/
def readItem? (steps : Nat) (ts : List Token) : Option (Yaml × List Token) :=
  match steps with
  | 0 => none
  | steps + 1 =>
    match ts with
    | .key :: r =>
      (readItemKey? steps r).bind fun (key, r) =>
        (readValue? steps .brackets Token.endsInSequence r).map fun (value, r) =>
          (.mapping [(key, value)], r)
    | _ => readNode? steps .brackets ts

/-- Reads the items of a sequence in brackets, up to and with the closing bracket. -/
def readItems? (steps : Nat) (ts : List Token) : Option (List Yaml × List Token) :=
  match steps with
  | 0 => none
  | steps + 1 =>
    match ts with
    | .closeSequence :: r => some ([], r)
    | _ =>
      (readItem? steps ts).bind fun (item, r) =>
        match r with
        | .comma :: r => (readItems? steps r).map fun (items, r) => (item :: items, r)
        | .closeSequence :: r => some ([item], r)
        | _ => none

/-- Reads an entry of a mapping in brackets; a node without a colon is a key without a value. -/
def readPair? (steps : Nat) (ts : List Token) : Option ((Yaml × Yaml) × List Token) :=
  match steps with
  | 0 => none
  | steps + 1 =>
    match ts with
    | .key :: r =>
      (readOptional? steps .brackets Token.endsKeyInMapping r).bind fun (key, r) =>
        (readValue? steps .brackets Token.endsInMapping r).map fun (value, r) => ((key, value), r)
    | _ => (readNode? steps .brackets ts).map fun (key, r) => ((key, absent), r)

/-- Reads the entries of a mapping in brackets, up to and with the closing bracket. -/
def readPairs? (steps : Nat) (ts : List Token) : Option (List (Yaml × Yaml) × List Token) :=
  match steps with
  | 0 => none
  | steps + 1 =>
    match ts with
    | .closeMapping :: r => some ([], r)
    | _ =>
      (readPair? steps ts).bind fun (entry, r) =>
        match r with
        | .comma :: r => (readPairs? steps r).map fun (entries, r) => (entry :: entries, r)
        | .closeMapping :: r => some ([entry], r)
        | _ => none

/-- Reads the items of a block sequence, up to and with its end. -/
def readBlockItems? (steps : Nat) (ts : List Token) : Option (List Yaml × List Token) :=
  match steps with
  | 0 => none
  | steps + 1 =>
    match ts with
    | .item :: r =>
      (readOptional? steps .block Token.endsItem r).bind fun (item, r) =>
        (readBlockItems? steps r).map fun (items, r) => (item :: items, r)
    | .blockEnd :: r => some ([], r)
    | _ => none

/-- Reads the items of a block sequence that has no tokens of its own. -/
def readLooseItems? (steps : Nat) (ts : List Token) : Option (List Yaml × List Token) :=
  match steps with
  | 0 => none
  | steps + 1 =>
    match ts with
    | .item :: r =>
      (readOptional? steps .block Token.endsLooseItem r).bind fun (item, r) =>
        (readLooseItems? steps r).map fun (items, r) => (item :: items, r)
    | _ => some ([], ts)

/-- Reads the entries of a block mapping, up to and with its end. -/
def readBlockEntries? (steps : Nat) (ts : List Token) :
    Option (List (Yaml × Yaml) × List Token) :=
  match steps with
  | 0 => none
  | steps + 1 =>
    match ts with
    | .key :: r =>
      (readOptional? steps .entry Token.endsEntry r).bind fun (key, r) =>
        (readValue? steps .entry Token.endsEntry r).bind fun (value, r) =>
          (readBlockEntries? steps r).map fun (entries, r) => ((key, value) :: entries, r)
    | .blockEnd :: r => some ([], r)
    | _ => none

end

/-! ### Documents -/

/-- Reads the node of a document, and what follows it. -/
def readRoot? (steps : Nat) (ts : List Token) : Option (Yaml × List Token) :=
  match ts with
  | [] => some (absent, [])
  | .documentStart :: r =>
    if r.head?.all Token.endsDocument then some (absent, r) else readNode? steps .block r
  | _ => readNode? steps .block ts

/-- The document of tokens; after it only marks may stand that end it. At most three steps are
taken between two tokens. -/
def ofTokens? (ts : List Token) : Option Yaml :=
  (readRoot? (3 * (ts.length + 1)) ts).bind fun (node, r) =>
    if r.all (· = .documentEnd) then some node else none

/-- The characters that a document may hold. -/
def isAdmitted (c : Char) : Bool :=
  c = '\t' || c = '\n' || (' ' ≤ c && c ≤ '~') || ('\u00a0' ≤ c && c ≠ '\ufffe' && c ≠ '\uffff')

/-- A text with every line break but the separators of lines and paragraphs made a line feed. -/
def unifyBreaks : Text → Text
  | '\r' :: '\n' :: s => '\n' :: unifyBreaks s
  | c :: s => (if c = '\r' ∨ c = '\u0085' then '\n' else c) :: unifyBreaks s
  | [] => []

/-- Reads a text that holds one document, or none, which counts as a node that is not written. -/
def read? (text : Text) : Option Yaml :=
  let s := unifyBreaks text
  if s.all isAdmitted then (tokens? s).bind ofTokens? else none

end MaskedViews.Yaml
