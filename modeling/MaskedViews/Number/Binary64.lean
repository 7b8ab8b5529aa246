/-!
# Binary64 numbers

The finite numbers of the 64-bit binary format, held exactly as a sign, a whole significand and a
power of two, so that rounding and comparison are arithmetic on whole numbers. A `Quantity` adds
the two infinities and the value that is not a number; only reading a decimal can produce those.

Rounding is to the nearest number of the format, and a value half way between two of them goes to
the one with the even significand.
-/

namespace MaskedViews

/-- The finite number `± significand · 2 ^ exponent`. The functions of this library build it with a
significand below `2 ^ 53` and an exponent from `-1074` to `971`, the significand being at least
`2 ^ 52` unless the exponent is least. -/
structure Binary64 where
  /-- Whether the sign is minus; a zero has a sign too. -/
  negative : Bool
  /-- The digits, as a whole number. -/
  significand : Nat
  /-- The power of two that scales the significand. -/
  exponent : Int
  deriving DecidableEq, Repr

/-- A power of two. -/
def twoTo (k : Nat) : Nat := Nat.pow 2 k

/-- A number of the format, an infinity, or no number. -/
inductive Quantity where
  /-- A finite number. -/
  | finite (x : Binary64)
  /-- The infinity of a sign. -/
  | infinite (negative : Bool)
  /-- Not a number: it compares with nothing. -/
  | nan
  deriving DecidableEq, Repr

namespace Binary64

/-- The least exponent: numbers below `2 ^ 52 · 2 ^ leastExponent` have fewer digits. -/
def leastExponent : Int := -1074

/-- The greatest exponent of a finite number. -/
def greatestExponent : Int := 971

/-! ### Rounding -/

/-- The whole number nearest to `num / den`, the even one of two equally near. -/
def halfEven (num den : Nat) : Nat :=
  let q := num / den
  let r := num % den
  if den < 2 * r ∨ (2 * r = den ∧ q % 2 = 1) then q + 1 else q

/-- Rounding moves a value by at most one half. -/
theorem halfEven_bounds {num den : Nat} (h : 0 < den) :
    2 * num ≤ 2 * halfEven num den * den + den ∧ 2 * halfEven num den * den ≤ 2 * num + den := by
  have hd := Nat.div_add_mod num den
  have hm := Nat.mod_lt num h
  simp only [halfEven]
  split
  · have e : 2 * (num / den + 1) * den = 2 * (den * (num / den)) + 2 * den := by
      rw [Nat.mul_add, Nat.add_mul, Nat.mul_comm den, Nat.mul_assoc]
    rw [e]
    constructor <;> omega
  · have e : 2 * (num / den) * den = 2 * (den * (num / den)) := by
      rw [Nat.mul_comm den, Nat.mul_assoc]
    rw [e]
    constructor <;> omega

/-- The greatest `k` with `2 ^ k ≤ num / den`. -/
def ratioLog2 (num den : Nat) : Int :=
  let k : Int := (num.log2 : Int) - den.log2
  let reached := if 0 ≤ k then den * twoTo k.toNat ≤ num else den ≤ num * twoTo (-k).toNat
  if reached then k else k - 1

/-- `num / den` in units of `2 ^ exponent`, rounded to a whole number. -/
def scaled (num den : Nat) (exponent : Int) : Nat :=
  if 0 ≤ exponent then halfEven num (den * twoTo exponent.toNat)
  else halfEven (num * twoTo (-exponent).toNat) den

/-- The number nearest to `± num / den`, an infinity when that is beyond every finite number. -/
def nearest (negative : Bool) (num den : Nat) : Quantity :=
  if num = 0 then .finite ⟨negative, 0, leastExponent⟩
  else
    let exponent := max (ratioLog2 num den - 52) leastExponent
    let significand := scaled num den exponent
    let x : Binary64 :=
      if significand = twoTo 53 then ⟨negative, twoTo 52, exponent + 1⟩
      else ⟨negative, significand, exponent⟩
    if greatestExponent < x.exponent then .infinite negative else .finite x

/-- The number nearest to an integer. -/
def ofInt (n : Int) : Quantity := nearest (n < 0) n.natAbs 1

/-! ### Comparison -/

/-- The value in units of `2 ^ unit`, exact when `unit` is at most the exponent. -/
def inUnits (x : Binary64) (unit : Int) : Int :=
  let magnitude : Int := x.significand * twoTo (x.exponent - unit).toNat
  if x.negative then -magnitude else magnitude

/-- Whether one value is below another; the two zeros are equal. -/
def blt (x y : Binary64) : Bool :=
  let unit := min x.exponent y.exponent
  x.inUnits unit < y.inUnits unit

end Binary64

namespace Quantity

/-- Whether one quantity is below another. No comparison with `nan` holds. -/
def blt : Quantity → Quantity → Bool
  | .finite x, .finite y => x.blt y
  | .finite _, .infinite negative => !negative
  | .infinite negative, .finite _ => negative
  | .infinite a, .infinite b => a && !b
  | .nan, _ => false
  | _, .nan => false

theorem blt_irrefl (q : Quantity) : q.blt q = false := by
  cases q with
  | finite x => simp [blt, Binary64.blt]
  | infinite negative => simp [blt]
  | nan => rfl

end Quantity

end MaskedViews
