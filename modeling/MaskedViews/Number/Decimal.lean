import MaskedViews.Number.Binary64
import MaskedViews.Text.Basic

/-!
# Numbers written in decimal

A written decimal is its digits as one whole number and a power of ten. `quantity` is the number
of the binary64 format nearest to it. `readQuantity?` reads the free form in which a person or
another program may have typed a number: a sign, digits with a point anywhere among them or at
either end, an exponent, or the word for an infinity or for no number.
-/

namespace MaskedViews

/-- The number `± digits · 10 ^ exponent` as it was written. -/
structure WrittenDecimal where
  /-- Whether a minus sign was written. -/
  negative : Bool
  /-- All digits in a row, the point left out. -/
  digits : Text
  /-- The power of ten that puts the point back. -/
  exponent : Int

/-- The whole number with the given decimal digits. -/
def digitsValue (digits : Text) : Nat :=
  digits.foldl (fun n c => 10 * n + (c.toNat - '0'.toNat)) 0

@[simp] theorem digitsValue_nil : digitsValue [] = 0 := rfl

theorem digitsValue_append_singleton (digits : Text) (c : Char) :
    digitsValue (digits ++ [c]) = 10 * digitsValue digits + (c.toNat - '0'.toNat) := by
  simp [digitsValue]

/-- The binary64 number nearest to a written decimal. A decimal with its first digit above the
400th place is beyond every finite number, one with it below the 400th decimal is nearest to
zero. -/
def WrittenDecimal.quantity (d : WrittenDecimal) : Quantity :=
  let digits := d.digits.dropWhile (· = '0')
  let first : Int := d.exponent + digits.length
  let value := digitsValue digits
  if digits = [] ∨ first < -400 then Binary64.nearest d.negative 0 1
  else if 400 < first then .infinite d.negative
  else if 0 ≤ d.exponent then Binary64.nearest d.negative (value * Nat.pow 10 d.exponent.toNat) 1
  else Binary64.nearest d.negative value (Nat.pow 10 (-d.exponent).toNat)

/-- Splits a sign off the front; no sign counts as plus. -/
def splitSign : Text → Bool × Text
  | '-' :: r => (true, r)
  | '+' :: r => (false, r)
  | r => (false, r)

/-- An exponent: an `e` in either case, a sign or none, and at least one digit up to the end. No
text at all is the exponent zero. -/
def readExponent? : Text → Option Int
  | [] => some 0
  | c :: r =>
    if c = 'e' ∨ c = 'E' then
      let (negative, digits) := splitSign r
      if digits ≠ [] ∧ digits.all Char.isDigit then
        some (if negative then -(digitsValue digits : Int) else digitsValue digits)
      else none
    else none

/-- Reads an unsigned decimal with at least one digit before or after its point. -/
def readDecimal? (negative : Bool) (s : Text) : Option WrittenDecimal :=
  let whole := s.takeWhile Char.isDigit
  let (fraction, r) :=
    match s.dropWhile Char.isDigit with
    | '.' :: r => (r.takeWhile Char.isDigit, r.dropWhile Char.isDigit)
    | r => ([], r)
  if whole ++ fraction = [] then none
  else
    (readExponent? r).map fun e => ⟨negative, whole ++ fraction, e - (fraction.length : Int)⟩

/-- Reads a number in free form; the whole text must be used up. -/
def readQuantity? (s : Text) : Option Quantity :=
  let (negative, r) := splitSign s
  let word := Text.lower r
  if word = "inf".toList ∨ word = "infinity".toList then some (.infinite negative)
  else if word = "nan".toList then some .nan
  else (readDecimal? negative r).map WrittenDecimal.quantity

end MaskedViews
