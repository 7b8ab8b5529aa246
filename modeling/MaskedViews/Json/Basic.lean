import MaskedViews.Number.Shortest
import MaskedViews.Text.Basic

/-!
# Data values

Records, rule values and stored documents are JSON values. A number is an exact integer or a
binary64 number: the two never mix, and `100` and `100.0` are different values with different
texts. The members of an object stand in ascending order of their keys, each key once; `setMember`
is the one way in which objects are built from outside.

`compact` is the written form without blanks. `toText` is the text that a value stands for when it
is shown or compared: a string is its own text and null is the empty text.
-/

namespace MaskedViews

/-- A number of a data value. -/
inductive Number where
  /-- A whole number, exact. -/
  | integer (n : Int)
  /-- A binary64 number. -/
  | real (x : Binary64)
  deriving DecidableEq, Repr

/-- The text of an integer: a minus sign if it is negative, and its decimal digits. -/
def integerText (n : Int) : Text :=
  (if n < 0 then ['-'] else []) ++ Nat.toDigits 10 n.natAbs

/-- The text of a number. -/
def Number.text : Number → Text
  | .integer n => integerText n
  | .real x => x.text

/-- The number as a quantity, an integer rounded to the nearest binary64 number. -/
def Number.quantity : Number → Quantity
  | .integer n => Binary64.ofInt n
  | .real x => .finite x

/-- A JSON value. -/
inductive Json where
  /-- Nothing. -/
  | null
  /-- A truth value. -/
  | bool (b : Bool)
  /-- A number. -/
  | number (n : Number)
  /-- A string. -/
  | string (s : Text)
  /-- A list of values. -/
  | array (items : List Json)
  /-- Values under keys. -/
  | object (members : List (Text × Json))
  deriving Inhabited

namespace Json

/-! ### Members -/

/-- The value under a key in a list of members. -/
def find? (key : Text) (members : List (Text × Json)) : Option Json :=
  (members.find? fun m => m.1 = key).map Prod.snd

@[simp] theorem find?_nil (key : Text) : find? key [] = none := rfl

theorem find?_cons (key : Text) (m : Text × Json) (members : List (Text × Json)) :
    find? key (m :: members) = if m.1 = key then some m.2 else find? key members := by
  by_cases h : m.1 = key <;> simp [find?, h]

/-- The value under a key of an object; nothing but an object has members. -/
def member? (key : Text) : Json → Option Json
  | .object members => find? key members
  | _ => none

/-- Puts a value under a key, in place of the one that is there. -/
def setMember (key : Text) (value : Json) : List (Text × Json) → List (Text × Json)
  | [] => [(key, value)]
  | m :: members =>
    if key = m.1 then (key, value) :: members
    else if Text.isBefore key m.1 then (key, value) :: m :: members
    else m :: setMember key value members

/-- A key that was set has the value it was set to, and every other key is as before. -/
theorem find?_setMember (key k : Text) (value : Json) (members : List (Text × Json)) :
    find? k (setMember key value members) = if key = k then some value else find? k members := by
  induction members with
  | nil => simp [setMember, find?_cons]
  | cons m members ih =>
    simp only [setMember]
    split
    · next h => subst h; by_cases hk : m.1 = k <;> simp [find?_cons, hk]
    · split
      · simp [find?_cons]
      · next h _ =>
        rw [find?_cons, find?_cons, ih]
        by_cases hm : m.1 = k
        · simp [hm, show key ≠ k from fun e => h (e.trans hm.symm)]
        · simp [hm]

/-- The object with the given members; of several under one key the last counts. -/
def ofMembers (members : List (Text × Json)) : Json :=
  .object (members.foldl (fun sorted m => setMember m.1 m.2 sorted) [])

/-! ### Written form -/

/-- A hexadecimal digit in small letters. -/
def hexDigit (n : Nat) : Char := Nat.digitChar n

/-- The written form of one character of a string. -/
def escapeChar (c : Char) : Text :=
  if c = '"' then ['\\', '"']
  else if c = '\\' then ['\\', '\\']
  else if c = '\x08' then ['\\', 'b']
  else if c = '\t' then ['\\', 't']
  else if c = '\n' then ['\\', 'n']
  else if c = '\x0c' then ['\\', 'f']
  else if c = '\r' then ['\\', 'r']
  else if c.toNat < 0x20 then
    ['\\', 'u', '0', '0', hexDigit (c.toNat / 16), hexDigit (c.toNat % 16)]
  else [c]

/-- The written form of a string. -/
def quote (s : Text) : Text := '"' :: (s.flatMap escapeChar ++ ['"'])

mutual

/-- The written form of a value, without any blanks. -/
def compact : Json → Text
  | .null => "null".toList
  | .bool true => "true".toList
  | .bool false => "false".toList
  | .number n => n.text
  | .string s => quote s
  | .array items => '[' :: (compactItems items ++ [']'])
  | .object members => '{' :: (compactMembers members ++ ['}'])

/-- The written forms of values, separated by commas. -/
def compactItems : List Json → Text
  | [] => []
  | [v] => compact v
  | v :: w :: vs => compact v ++ ',' :: compactItems (w :: vs)

/-- The written forms of members, separated by commas. -/
def compactMembers : List (Text × Json) → Text
  | [] => []
  | [(k, v)] => quote k ++ ':' :: compact v
  | (k, v) :: m :: ms => quote k ++ ':' :: (compact v ++ ',' :: compactMembers (m :: ms))

end

/-! ### Text of a value -/

/-- The text that a value stands for. -/
def toText : Json → Text
  | .null => []
  | .bool true => "true".toList
  | .bool false => "false".toList
  | .number n => n.text
  | .string s => s
  | v => compact v

@[simp] theorem toText_null : toText .null = [] := rfl

@[simp] theorem toText_string (s : Text) : toText (.string s) = s := rfl

/-- Whether a value is null. -/
def isNull : Json → Bool
  | .null => true
  | _ => false

theorem isNull_iff {v : Json} : v.isNull = true ↔ v = .null := by
  cases v <;> simp [isNull]

end Json

end MaskedViews
