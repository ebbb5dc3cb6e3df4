/-
  StyleNesting/Text/Numeral.lean
  ==============================
  **Integers as people type them**: decimal digits of any script, an optional
  sign, single underscores between digits, blanks around.  Neither reading nor
  spelling goes beyond a fixed number of digits.
-/
import StyleNesting.Text.Word

namespace StyleNesting.Text

/-! ### The longest integers -/

/-- The most digits that an integer is read from or spelled with. -/
def maxDigits : Nat := 4300

/-- An integer with more digits than that was met. -/
inductive LongInteger where
  | read (digits : Nat)
  | spelled
deriving DecidableEq, Repr

def LongInteger.message : LongInteger → String
  | .read digits =>
    "Exceeds the limit (4300 digits) for integer string conversion: value has " ++
      toString digits ++ " digits; use sys.set_int_max_str_digits() to increase the limit"
  | .spelled =>
    "Exceeds the limit (4300 digits) for integer string conversion; " ++
      "use sys.set_int_max_str_digits() to increase the limit"

/-- The number of digits among digits and underscores. -/
def digitCount (t : Text) : Nat := (t.filter (· != '_')).length

/-! ### Reading -/

/-- The digit zero of every decimal script beyond ASCII; the other nine digits follow it. -/
def zeroDigits : List Nat :=
  [0x660, 0x6F0, 0x7C0, 0x966, 0x9E6, 0xA66, 0xAE6, 0xB66, 0xBE6, 0xC66, 0xCE6, 0xD66, 0xDE6,
   0xE50, 0xED0, 0xF20, 0x1040, 0x1090, 0x17E0, 0x1810, 0x1946, 0x19D0, 0x1A80, 0x1A90, 0x1B50,
   0x1BB0, 0x1C40, 0x1C50, 0xA620, 0xA8D0, 0xA900, 0xA9D0, 0xA9F0, 0xAA50, 0xABF0, 0xFF10,
   0x104A0, 0x10D30, 0x11066, 0x110F0, 0x11136, 0x111D0, 0x112F0, 0x11450, 0x114D0, 0x11650,
   0x116C0, 0x11730, 0x118E0, 0x11950, 0x11C50, 0x11D50, 0x11DA0, 0x16A60, 0x16AC0, 0x16B50,
   0x1D7CE, 0x1D7D8, 0x1D7E2, 0x1D7EC, 0x1D7F6, 0x1E140, 0x1E2F0, 0x1E950, 0x1FBF0]

/-- The value of a decimal digit of any script. -/
def digitValue? (c : Char) : Option Nat :=
  let n := c.toNat
  if isAsciiDigit c then some (n - 48)
  else (zeroDigits.find? fun z => z ≤ n && n ≤ z + 9).map (n - ·)

/-- Read digits with single underscores between them; `value` is what the digits so far
    are worth, and `afterDigit` says that a digit stands right before. -/
def digits? : Nat → Bool → Text → Option Nat
  | value, afterDigit, [] => if afterDigit then some value else none
  | value, afterDigit, c :: t =>
    match digitValue? c with
    | some d => digits? (10 * value + d) true t
    | none => if c == '_' && afterDigit then digits? value false t else none

/-- The natural number that a text without sign spells, if it is not too long. -/
def natural? (t : Text) : Option Nat :=
  if maxDigits < digitCount t then none else digits? 0 false t

/-- The blanks that may stand around a number: all but the control separators. -/
def isBlankByNumber (c : Char) : Bool := isBlank c && !(28 ≤ c.toNat && c.toNat ≤ 31)

/-- A text without the blanks that may stand around a number. -/
def trimByNumber (t : Text) : Text :=
  ((t.dropWhile isBlankByNumber).reverse.dropWhile isBlankByNumber).reverse

/-- The integer that a text spells, if it spells one. -/
def integer? (t : Text) : Option Int :=
  match trimByNumber t with
  | '+' :: ds => (natural? ds).map Int.ofNat
  | '-' :: ds => (natural? ds).map fun n => -Int.ofNat n
  | ds => (natural? ds).map Int.ofNat

end StyleNesting.Text
