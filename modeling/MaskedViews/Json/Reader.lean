import MaskedViews.Json.Basic
import MaskedViews.Number.Decimal

/-!
# Reading data values

`read?` accepts exactly one JSON value with blanks around it. The form is the strict one: the only
blanks are space, tab, line feed and carriage return, there are no comments and no commas at the
end of a list, strings hold no control characters, and a `\u` escape that is half of a surrogate
pair needs its other half.

An integer without fraction and exponent stays exact from `-2^63` to `2^64 - 1`; only `-0` does
not, since it is the negative zero. All other numbers are rounded to binary64, and one that would
be infinite is refused. At most 127 arrays and objects may be open at once.
-/

namespace MaskedViews.Json

/-- The blanks that may stand between the parts of a value. -/
def isSpace (c : Char) : Bool := c = ' ' || c = '\t' || c = '\n' || c = '\r'

/-- What is left after leading blanks. -/
def skipSpace (s : Text) : Text := s.dropWhile isSpace

/-- How many arrays and objects may be open at once. -/
def maxDepth : Nat := 127

/-! ### Strings -/

/-- The value of a hexadecimal digit in either case. -/
def hexValue? (c : Char) : Option Nat :=
  if c.isDigit then some (c.toNat - '0'.toNat)
  else if 'a' ≤ c ∧ c ≤ 'f' then some (c.toNat - 'a'.toNat + 10)
  else if 'A' ≤ c ∧ c ≤ 'F' then some (c.toNat - 'A'.toNat + 10)
  else none

/-- The number written by hexadecimal digits. -/
def hexNumber? (digits : Text) : Option Nat :=
  digits.foldlM (fun n c => (hexValue? c).map (16 * n + ·)) 0

/-- The character of a code point, if it is one. -/
def charOfCode? (n : Nat) : Option Char :=
  if n.isValidChar then some (Char.ofNat n) else none

/-- Whether a number is the first half of a surrogate pair. -/
def isHighSurrogate (n : Nat) : Bool := 0xd800 ≤ n && n < 0xdc00

/-- Whether a number is the second half of a surrogate pair. -/
def isLowSurrogate (n : Nat) : Bool := 0xdc00 ≤ n && n < 0xe000

/-- The character that a backslash and a letter stand for. -/
def shortEscape? : Char → Option Char
  | '"' => some '"'
  | '\\' => some '\\'
  | '/' => some '/'
  | 'b' => some '\x08'
  | 'f' => some '\x0c'
  | 'n' => some '\n'
  | 'r' => some '\r'
  | 't' => some '\t'
  | _ => none

/-- A piece of a string as it is written. -/
inductive Piece where
  /-- A character that stands for itself or follows a backslash. -/
  | char (c : Char)
  /-- A unit given by four hexadecimal digits. -/
  | unit (n : Nat)

/-- Reads the pieces of a string up to its closing quote. -/
def readPieces? : Text → Option (List Piece × Text)
  | [] => none
  | c :: s =>
    if c = '"' then some ([], s)
    else if c = '\\' then
      match s with
      | [] => none
      | e :: s =>
        if e = 'u' then
          match s with
          | a :: b :: c :: d :: s =>
            (hexNumber? [a, b, c, d]).bind fun n =>
              (readPieces? s).map fun (pieces, r) => (.unit n :: pieces, r)
          | _ => none
        else
          (shortEscape? e).bind fun c =>
            (readPieces? s).map fun (pieces, r) => (.char c :: pieces, r)
    else if c.toNat < 0x20 then none
    else (readPieces? s).map fun (pieces, r) => (.char c :: pieces, r)

/-- The text of pieces: surrogate halves pair up, and a lone one is refused. -/
def joinPieces? : List Piece → Option Text
  | [] => some []
  | .char c :: pieces => (joinPieces? pieces).map (c :: ·)
  | .unit n :: pieces =>
    if isHighSurrogate n then
      match pieces with
      | .unit m :: pieces =>
        if isLowSurrogate m then
          (charOfCode? (0x10000 + (n - 0xd800) * 0x400 + (m - 0xdc00))).bind fun c =>
            (joinPieces? pieces).map (c :: ·)
        else none
      | _ => none
    else
      (charOfCode? n).bind fun c => (joinPieces? pieces).map (c :: ·)

/-- Reads a string whose opening quote has been passed. -/
def readString? (s : Text) : Option (Text × Text) :=
  (readPieces? s).bind fun (pieces, r) => (joinPieces? pieces).map fun text => (text, r)

/-! ### Numbers -/

/-- The integers that stay exact. -/
def isExact (n : Int) : Bool := -(twoTo 63 : Int) ≤ n && n < (twoTo 64 : Int)

/-- Reads digits, of which there must be one. -/
def readDigits? (s : Text) : Option (Text × Text) :=
  let digits := s.takeWhile Char.isDigit
  if digits = [] then none else some (digits, s.dropWhile Char.isDigit)

/-- Reads the digits before the point: a zero, or digits that do not begin with one. -/
def readWhole? : Text → Option (Text × Text)
  | '0' :: r => some (['0'], r)
  | s => readDigits? s

/-- Reads a fraction, if a point begins one. -/
def readFraction? : Text → Option (Option Text × Text)
  | '.' :: r => (readDigits? r).map fun (digits, r) => (some digits, r)
  | s => some (none, s)

/-- Reads an exponent, if an `e` begins one. -/
def readPower? : Text → Option (Option Int × Text)
  | c :: r =>
    if c = 'e' ∨ c = 'E' then
      let (negative, r) := splitSign r
      (readDigits? r).map fun (digits, r) =>
        (some (if negative then -(digitsValue digits : Int) else digitsValue digits), r)
    else some (none, c :: r)
  | [] => some (none, [])

/-- The number with the given parts. -/
def number? (negative : Bool) (whole : Text) (fraction : Option Text) (power : Option Int) :
    Option Number :=
  let n : Int := if negative then -(digitsValue whole : Int) else digitsValue whole
  if fraction.isNone ∧ power.isNone ∧ isExact n ∧ ¬(negative ∧ n = 0) then some (.integer n)
  else
    let digits := fraction.getD []
    let written : WrittenDecimal :=
      ⟨negative, whole ++ digits, power.getD 0 - (digits.length : Int)⟩
    match written.quantity with
    | .finite x => some (.real x)
    | _ => none

/-- Reads a number. -/
def readNumber? (s : Text) : Option (Number × Text) :=
  let (negative, r) := match s with
    | '-' :: r => (true, r)
    | r => (false, r)
  (readWhole? r).bind fun (whole, r) =>
    (readFraction? r).bind fun (fraction, r) =>
      (readPower? r).bind fun (power, r) =>
        (number? negative whole fraction power).map fun n => (n, r)

/-! ### Values -/

mutual

/-- Reads a value off the front of a text. At most `depth` containers may be opened, and at most
`steps` values and list items are read one inside or after the other. -/
def readValue? (steps depth : Nat) (s : Text) : Option (Json × Text) :=
  match steps with
  | 0 => none
  | steps + 1 =>
    match skipSpace s with
    | '"' :: r => (readString? r).map fun (text, r) => (.string text, r)
    | '[' :: r =>
      match depth, skipSpace r with
      | 0, _ => none
      | _ + 1, ']' :: r => some (.array [], r)
      | depth + 1, r => (readItems? steps depth r).map fun (items, r) => (.array items, r)
    | '{' :: r =>
      match depth, skipSpace r with
      | 0, _ => none
      | _ + 1, '}' :: r => some (.object [], r)
      | depth + 1, r => (readMembers? steps depth r).map fun (members, r) => (ofMembers members, r)
    | 'n' :: 'u' :: 'l' :: 'l' :: r => some (.null, r)
    | 't' :: 'r' :: 'u' :: 'e' :: r => some (.bool true, r)
    | 'f' :: 'a' :: 'l' :: 's' :: 'e' :: r => some (.bool false, r)
    | r => (readNumber? r).map fun (n, r) => (.number n, r)

/-- Reads the items of an array from the first one to the closing bracket. -/
def readItems? (steps depth : Nat) (s : Text) : Option (List Json × Text) :=
  match steps with
  | 0 => none
  | steps + 1 =>
    (readValue? steps depth s).bind fun (v, r) =>
      match skipSpace r with
      | ',' :: r => (readItems? steps depth r).map fun (vs, r) => (v :: vs, r)
      | ']' :: r => some ([v], r)
      | _ => none

/-- Reads the members of an object from the first one to the closing brace. -/
def readMembers? (steps depth : Nat) (s : Text) : Option (List (Text × Json) × Text) :=
  match steps with
  | 0 => none
  | steps + 1 =>
    match skipSpace s with
    | '"' :: r =>
      (readString? r).bind fun (key, r) =>
        match skipSpace r with
        | ':' :: r =>
          (readValue? steps depth r).bind fun (v, r) =>
            match skipSpace r with
            | ',' :: r => (readMembers? steps depth r).map fun (ms, r) => ((key, v) :: ms, r)
            | '}' :: r => some ([(key, v)], r)
            | _ => none
        | _ => none
    | _ => none

end

/-- Reads a text that is one value, with at most `depth` containers open at once. Each value and
each item takes a character, so twice the length of the text bounds the steps. -/
def readWithin? (depth : Nat) (s : Text) : Option Json :=
  match readValue? (2 * s.length + 1) depth s with
  | some (v, r) => if skipSpace r = [] then some v else none
  | none => none

/-- Reads a text that is one value. -/
def read? (s : Text) : Option Json := readWithin? maxDepth s

/-- The items of a text that is one array. -/
def readArray? (s : Text) : Option (List Json) :=
  match read? s with
  | some (.array items) => some items
  | _ => none

end MaskedViews.Json
