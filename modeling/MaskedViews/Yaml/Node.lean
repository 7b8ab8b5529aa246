import MaskedViews.Json.Reader

/-!
# YAML nodes

A YAML document is a tree of scalars, sequences and mappings. A scalar keeps whether it was written
plain, that is without quotes and not as a block: only then can it stand for anything but its text.

What a plain scalar stands for is decided by its looks. The empty text, `~` and `null` stand for
nothing, `true` and `false` for truth values, each in small letters, with a capital or in capitals.
Integers are decimal, or hexadecimal, octal or binary after `0x`, `0o` or `0b`, with or without a
sign; a decimal integer with a leading zero is a text. What then reads as a finite number is one.
-/

namespace MaskedViews

/-- A YAML node. -/
inductive Yaml where
  /-- A scalar, and whether it was written plain. -/
  | scalar (plain : Bool) (s : Text)
  /-- A list of nodes. -/
  | sequence (items : List Yaml)
  /-- Nodes under keys, which are nodes too, as they were written. -/
  | mapping (entries : List (Yaml × Yaml))
  deriving Inhabited

namespace Yaml

/-- The node that is not written at all. -/
def absent : Yaml := .scalar true []

/-! ### Looks of plain scalars -/

/-- Whether a plain scalar stands for nothing. -/
def looksNull (s : Text) : Bool :=
  s = [] || (["~", "null", "Null", "NULL"].map String.toList).contains s

/-- The truth value that a plain scalar stands for. -/
def looksBool? (s : Text) : Option Bool :=
  if (["true", "True", "TRUE"].map String.toList).contains s then some true
  else if (["false", "False", "FALSE"].map String.toList).contains s then some false
  else none

/-- The value of a digit of a base. -/
def digitValue? (base : Nat) (c : Char) : Option Nat :=
  (Json.hexValue? c).filter (· < base)

/-- The number written by digits of a base, of which there must be one. -/
def digitsNumber? (base : Nat) (digits : Text) : Option Nat :=
  if digits = [] then none
  else digits.foldlM (fun n c => (digitValue? base c).map (base * n + ·)) 0

/-- A text without one sign at its front. -/
def dropSign : Text → Text
  | '-' :: s => s
  | '+' :: s => s
  | s => s

/-- Whether a scalar is digits after a leading zero, sign aside. -/
def looksZeroPadded (s : Text) : Bool :=
  match dropSign s with
  | '0' :: c :: digits => (c :: digits).all Char.isDigit
  | _ => false

/-- The whole number written by an unsigned scalar. -/
def magnitude? : Text → Option Nat
  | '0' :: 'x' :: digits => digitsNumber? 16 digits
  | '0' :: 'o' :: digits => digitsNumber? 8 digits
  | '0' :: 'b' :: digits => digitsNumber? 2 digits
  | digits => if looksZeroPadded digits then none else digitsNumber? 10 digits

/-- The integer that a plain scalar stands for. -/
def looksInt? : Text → Option Int
  | '-' :: s => (magnitude? s).map fun n => -(n : Int)
  | '+' :: s => (magnitude? s).map fun n => (n : Int)
  | s => (magnitude? s).map fun n => (n : Int)

/-- The integers that are read as integers at all; a longer one is read as a number. -/
def isWide (n : Int) : Bool := -(twoTo 127 : Int) ≤ n && n < (twoTo 128 : Int)

/-- The words for the infinities and for no number, which data cannot hold. -/
def nonNumbers : List Text :=
  [".inf", ".Inf", ".INF", "+.inf", "+.Inf", "+.INF", "-.inf", "-.Inf", "-.INF", ".nan", ".NaN",
    ".NAN"].map String.toList

/-- The finite number that a plain scalar stands for. -/
def looksReal? (s : Text) : Option Binary64 :=
  let signs := (s.takeWhile fun c => c = '+' || c = '-').length
  if looksZeroPadded s || 1 < signs then none
  else
    match readQuantity? s with
    | some (.finite x) => some x
    | _ => none

/-- The data value that a plain scalar stands for; none for an integer that data cannot hold. -/
def plainValue? (s : Text) : Option Json :=
  if looksNull s then some .null
  else
    match looksBool? s with
    | some b => some (.bool b)
    | none =>
      match (looksInt? s).filter isWide with
      | some n => if Json.isExact n then some (.number (.integer n)) else none
      | none =>
        if nonNumbers.contains s then some .null
        else
          match looksReal? s with
          | some x => some (.number (.real x))
          | none => some (.string s)

/-! ### Nodes as data -/

mutual

/-- A node as a data value; `depth` sequences and mappings may be inside one another. -/
def value? (depth : Nat) : Yaml → Option Json
  | .scalar true s => plainValue? s
  | .scalar false s => some (.string s)
  | .sequence items =>
    match depth with
    | 0 => none
    | depth + 1 => (values? depth items).map .array
  | .mapping entries =>
    match depth with
    | 0 => none
    | depth + 1 => (members? depth entries).map Json.ofMembers

/-- Nodes as data values. -/
def values? (depth : Nat) : List Yaml → Option (List Json)
  | [] => some []
  | node :: nodes =>
    (value? depth node).bind fun v => (values? depth nodes).map fun vs => v :: vs

/-- Entries as members; every key must be a scalar and stands for its text. -/
def members? (depth : Nat) : List (Yaml × Yaml) → Option (List (Text × Json))
  | [] => some []
  | (.scalar _ key, node) :: entries =>
    (value? depth node).bind fun v => (members? depth entries).map fun ms => (key, v) :: ms
  | _ => none

end

end Yaml

end MaskedViews
