import MaskedViews.Number.Binary64
import MaskedViews.Text.Basic

/-!
# The shortest decimal form

The text of a binary64 number has the fewest decimal digits that still read back as the number,
and of all decimals with so many digits the one nearest to the number.

The decimals that read back form an interval around the number: its ends lie half way to the two
neighbours and belong to it when the significand is even. On the grid of decimals with `n` digits
only the two points next to the number can be the nearest, so the search tries those for
`n = 1, 2, …`; seventeen digits always suffice. All of it is arithmetic on whole numbers.
-/

namespace MaskedViews.Binary64

/-- A positive decimal `digits · 10 ^ exponent`. -/
structure Decimal where
  /-- The digits, as a whole number. -/
  digits : Nat
  /-- The power of ten that scales them. -/
  exponent : Int
  deriving DecidableEq, Repr

/-- The fraction `base ^ k`, as numerator and denominator. -/
def power (base : Nat) (k : Int) : Nat × Nat :=
  if 0 ≤ k then (Nat.pow base k.toNat, 1) else (1, Nat.pow base (-k).toNat)

/-- The number of decimal digits of a whole number. -/
def digitCount (n : Nat) : Nat := (Nat.toDigits 10 n).length

/-- The greatest `k` with `10 ^ k ≤ num / den`. -/
def ratioLog10 (num den : Nat) : Int :=
  if den ≤ num then (digitCount (num / den) : Int) - 1
  else
    let n := digitCount (den / num)
    if den ≤ num * Nat.pow 10 (n - 1) then -((n : Int) - 1) else -(n : Int)

/-- The interval of decimals that read back as a number, in quarters of its unit `2 ^ exponent`. -/
structure Interval where
  /-- The lower end. -/
  low : Nat
  /-- The number itself. -/
  middle : Nat
  /-- The upper end. -/
  high : Nat
  /-- Whether the ends belong to the interval. -/
  closed : Bool

/-- Half the way to the next number above, and to the next below, which is nearer at a power of
two. -/
def interval (x : Binary64) : Interval where
  low := 4 * x.significand -
    (if x.significand = twoTo 52 ∧ leastExponent < x.exponent then 1 else 2)
  middle := 4 * x.significand
  high := 4 * x.significand + 2
  closed := x.significand % 2 = 0

/-- The nearest decimal with `n` digits that reads back as the number, if there is one. -/
def nearestOnGrid? (x : Binary64) (n : Nat) : Option Decimal :=
  let i := x.interval
  let (un, ud) := power 2 (x.exponent - 2)
  let exponent := ratioLog10 (i.middle * un) ud - (n : Int) + 1
  let (pn, pd) := power 10 exponent
  -- both the ends and the grid points, as multiples of `1 / (ud * pd)`
  let low := i.low * un * pd
  let middle := i.middle * un * pd
  let high := i.high * un * pd
  let point (c : Nat) : Nat := c * pn * ud
  let inside (c : Nat) : Bool :=
    if i.closed then low ≤ point c && point c ≤ high else low < point c && point c < high
  let below := middle / (pn * ud)
  let above := below + 1
  match inside below, inside above with
  | false, false => none
  | true, false => some ⟨below, exponent⟩
  | false, true => some ⟨above, exponent⟩
  | true, true =>
    let down := middle - point below
    let up := point above - middle
    if down < up ∨ (down = up ∧ below % 2 = 0) then some ⟨below, exponent⟩
    else some ⟨above, exponent⟩

/-- The shortest decimal that reads back as a number other than zero. -/
def shortest (x : Binary64) : Decimal :=
  ((List.range' 1 17).findSome? x.nearestOnGrid?).getD ⟨0, 0⟩

/-! ### The written form -/

/-- How the digits of a number are laid out. -/
structure Layout where
  /-- The least power of ten of the first digit that is written in positions. -/
  positionalFrom : Int
  /-- The first power of ten of the first digit that is written with an exponent again. -/
  positionalBelow : Int

/-- Numbers from `1e-5` up to but not including `1e16` are written in positions with at least one
digit after the point, all others with an exponent that always has its sign. -/
def dataLayout : Layout := ⟨-5, 16⟩

/-- The digits of a whole number. -/
def decimalDigits (n : Nat) : Text := Nat.toDigits 10 n

/-- The digits without the zeros at their end. -/
def significantDigits (n : Nat) : Text :=
  Text.dropEndWhile (· = '0') (decimalDigits n)

/-- A text, or a zero in place of the empty one. -/
def orZero (s : Text) : Text := if s = [] then ['0'] else s

/-- The exponent of the written form, sign first. -/
def exponentText (k : Int) : Text :=
  'e' :: (if k < 0 then '-' else '+') :: decimalDigits k.natAbs

/-- The text of a positive decimal. -/
def Decimal.text (layout : Layout) (d : Decimal) : Text :=
  let digits := significantDigits d.digits
  let first : Int := d.exponent + (digitCount d.digits : Int) - 1
  if layout.positionalFrom ≤ first ∧ first < layout.positionalBelow then
    if first < 0 then
      '0' :: '.' :: (List.replicate (-first - 1).toNat '0' ++ digits)
    else
      let whole := first.toNat + 1
      digits.take whole ++ List.replicate (whole - digits.length) '0' ++
        '.' :: orZero (digits.drop whole)
  else
    digits.take 1 ++ (if digits.length ≤ 1 then [] else '.' :: digits.drop 1) ++ exponentText first

/-- The text of a number: its shortest form, with the sign even of a zero. -/
def text (x : Binary64) : Text :=
  (if x.negative then ['-'] else []) ++
    (if x.significand = 0 then ['0', '.', '0'] else x.shortest.text dataLayout)

end MaskedViews.Binary64
