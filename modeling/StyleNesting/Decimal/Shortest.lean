/-
  StyleNesting/Decimal/Shortest.lean
  ==================================
  **The shortest decimal that reads back.**  Of all decimals that are read as a
  given double, the one with the fewest digits is taken, and of those the one
  nearest to the double.  For every number of digits it is enough to look at the
  two decimals around the double.
-/
import StyleNesting.Decimal.Double

namespace StyleNesting.Double

/-- The least `j`, from `j` on, for which `num` times ten to the `j` reaches `den`. -/
def leadingZeros (num den : Nat) : Nat → Nat → Nat
  | 0, j => j
  | fuel + 1, j => if den ≤ num * Nat.pow 10 j then j else leadingZeros num den fuel (j + 1)

/-- The exponent of the least power of ten above the positive ratio `num / den`. -/
def decimalExponent (num den : Nat) : Int :=
  if den ≤ num then Int.ofNat (decimalLength (num / den))
  else 1 - Int.ofNat (leadingZeros num den 400 1)

/-- `num / den` times ten to the `-e`, as numerator and denominator. -/
def scaleDecimal (num den : Nat) (e : Int) : Nat × Nat :=
  match e with
  | .ofNat k => (num, den * Nat.pow 10 k)
  | .negSucc k => (num * Nat.pow 10 (k + 1), den)

/-- The decimal with `k` digits that reads back as the positive double `x`, whose
    value is `num / den`. -/
def withDigits? (x : Double) (num den : Nat) (k : Nat) : Option (Nat × Int) :=
  let exponent := decimalExponent num den - Int.ofNat k
  let (a, b) := scaleDecimal num den exponent
  let low := a / b
  let readsBack (d : Nat) := decide (ofDecimal false d exponent = x)
  let lowIsNearer := decide (2 * (a % b) < b) || (decide (2 * (a % b) = b) && low % 2 == 0)
  if readsBack low && (lowIsNearer || !readsBack (low + 1)) then some (low, exponent)
  else if readsBack (low + 1) then some (low + 1, exponent)
  else none

/-- The shortest decimal from `k` digits on. -/
def searchDigits (x : Double) (num den : Nat) : Nat → Nat → Nat × Int
  | 0, _ => (0, 0)
  | fuel + 1, k =>
    match withDigits? x num den k with
    | some d => d
    | none => searchDigits x num den fuel (k + 1)

/-- Move zeros at the end of the digits into the exponent. -/
def dropZeros : Nat → Nat × Int → Nat × Int
  | 0, d => d
  | fuel + 1, (digits, e) =>
    if digits ≠ 0 ∧ digits % 10 = 0 then dropZeros fuel (digits / 10, e + 1) else (digits, e)

/-- The shortest decimal, as digits and exponent, for the positive double
    `mantissa` times two to the `exponent`. -/
def shortest (mantissa : Nat) (exponent : Int) : Nat × Int :=
  let (num, den) := scaleDown mantissa 1 (-exponent)
  dropZeros 20 (searchDigits (.finite false mantissa exponent) num den 17 1)

end StyleNesting.Double
