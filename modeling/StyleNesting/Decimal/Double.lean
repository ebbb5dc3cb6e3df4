/-
  StyleNesting/Decimal/Double.lean
  ================================
  **Double-precision numbers as exact values**: a sign, a whole mantissa of at
  most 53 bits, and a power of two.  A decimal is read to the nearest such
  number, and a tie goes to the even mantissa.
-/
namespace StyleNesting

/-- A double-precision number. -/
inductive Double where
  | nan
  | infinite (negative : Bool)
  /-- Plus or minus `mantissa` times two to the `exponent`. -/
  | finite (negative : Bool) (mantissa : Nat) (exponent : Int)
deriving DecidableEq, Repr

namespace Double

/-- The smallest exponent; numbers below it lose bits of their mantissa. -/
def minExponent : Int := -1074

/-- The largest exponent of a full mantissa. -/
def maxExponent : Int := 971

/-- The quotient of two numbers, rounded to the nearest whole number; a tie goes
    to the even one. -/
def roundQuotient (num den : Nat) : Nat :=
  let q := num / den
  let twice := 2 * (num % den)
  if twice < den then q
  else if den < twice then q + 1
  else if q % 2 = 0 then q
  else q + 1

/-- `num / den` times two to the `-e`, as numerator and denominator. -/
def scaleDown (num den : Nat) (e : Int) : Nat × Nat :=
  match e with
  | .ofNat k => (num, den * Nat.pow 2 k)
  | .negSucc k => (num * Nat.pow 2 (k + 1), den)

/-- The double nearest to the positive ratio `num / den`. -/
def ofRatio (negative : Bool) (num den : Nat) : Double :=
  let estimate : Int := Int.ofNat num.log2 - Int.ofNat den.log2
  let reaches := let (a, b) := scaleDown num den estimate; decide (b ≤ a)
  let exponent := max (if reaches then estimate - 52 else estimate - 53) minExponent
  let (a, b) := scaleDown num den exponent
  let rounded := roundQuotient a b
  let (mantissa, exponent) :=
    if rounded = Nat.pow 2 53 then (Nat.pow 2 52, exponent + 1) else (rounded, exponent)
  if exponent > maxExponent then .infinite negative
  else .finite negative mantissa exponent

/-- The number of decimal digits. -/
def decimalLength (n : Nat) : Nat := (Nat.toDigits 10 n).length

/-- The double nearest to plus or minus `digits` times ten to the `exponent`. -/
def ofDecimal (negative : Bool) (digits : Nat) (exponent : Int) : Double :=
  let size := Int.ofNat (decimalLength digits) + exponent
  if digits = 0 || size < -400 then .finite negative 0 minExponent
  else if size > 400 then .infinite negative
  else
    match exponent with
    | .ofNat k => ofRatio negative (digits * Nat.pow 10 k) 1
    | .negSucc k => ofRatio negative digits (Nat.pow 10 (k + 1))

end Double

end StyleNesting
