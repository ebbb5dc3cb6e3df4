/-
  StyleNesting/Setting/Literal.lean
  =================================
  **How messages spell a value.**  Numbers are spelled with the fewest digits
  that read back, positionally where the point falls within the first sixteen
  digits or the first four zeros; texts are quoted; lists and tables are spelled
  entry by entry.  A value that holds too long an integer cannot be spelled.
-/
import StyleNesting.Decimal.Shortest
import StyleNesting.Setting.Value
import StyleNesting.Text.Numeral
import StyleNesting.Text.Quoted

namespace StyleNesting

/-! ### Numbers -/

/-- The exponent of a number: its sign and at least two digits. -/
def Double.exponentText (e : Int) : String :=
  let digits := toString e.natAbs
  (if e < 0 then "e-" else "e+") ++ (if digits.length < 2 then "0" else "") ++ digits

/-- A positive decimal of the given digits whose point stands after `point` digits. -/
def Double.layout (digits : List Char) (point : Int) : String :=
  let zeros (n : Nat) := List.replicate n '0'
  if point ≤ -4 ∨ point > 16 then
    let fraction := digits.drop 1
    String.ofList (digits.take 1 ++ (if fraction.isEmpty then [] else '.' :: fraction)) ++
      Double.exponentText (point - 1)
  else if point ≤ 0 then
    String.ofList (['0', '.'] ++ zeros point.natAbs ++ digits)
  else
    let n := point.natAbs
    let whole := digits.take n ++ zeros (n - digits.length)
    let fraction := digits.drop n
    String.ofList (whole ++ '.' :: (if fraction.isEmpty then ['0'] else fraction))

/-- A double as messages spell it. -/
def Double.literal : Double → String
  | .nan => "nan"
  | .infinite negative => if negative then "-inf" else "inf"
  | .finite negative mantissa exponent =>
    let sign := if negative then "-" else ""
    if mantissa = 0 then sign ++ "0.0"
    else
      let (digits, e) := Double.shortest mantissa exponent
      let text := Nat.toDigits 10 digits
      sign ++ Double.layout text (Int.ofNat text.length + e)

/-! ### Days and times -/

/-- Numbers with a comma and a space between neighbours. -/
def commaList (ns : List Nat) : String := String.intercalate ", " (ns.map toString)

/-- The fields of a time; zero seconds are left out, and so are zero microseconds. -/
def ClockTime.fields (t : ClockTime) : List Nat :=
  [t.hour, t.minute] ++
    (if t.microsecond ≠ 0 then [t.second, t.microsecond]
     else if t.second ≠ 0 then [t.second]
     else [])

/-- An offset from universal time, as whole days and the seconds beyond them. -/
def offsetLiteral (offset : Int) : String :=
  if offset = 0 then "datetime.timezone.utc"
  else
    let days := Int.fdiv offset 86400
    let seconds := Int.fmod offset 86400
    let fields := (if days = 0 then [] else ["days=" ++ toString days]) ++
      (if seconds = 0 then [] else ["seconds=" ++ toString seconds])
    "datetime.timezone(datetime.timedelta(" ++ String.intercalate ", " fields ++ "))"

/-! ### Values -/

namespace Value

mutual
/-- A value as messages spell it. -/
def literal : Value → String
  | .null => "None"
  | .bool b => if b then "True" else "False"
  | .int i => toString i
  | .float x => x.literal
  | .text t => Text.quotedString t
  | .date d => "datetime.date(" ++ commaList [d.year, d.month, d.day] ++ ")"
  | .time t => "datetime.time(" ++ commaList t.fields ++ ")"
  | .dateTime d t offset =>
    "datetime.datetime(" ++ commaList ([d.year, d.month, d.day] ++ t.fields) ++
      (match offset with
       | some o => ", tzinfo=" ++ offsetLiteral o
       | none => "") ++ ")"
  | .list vs => "[" ++ String.intercalate ", " (literals vs) ++ "]"
  | .table es => "\x7b" ++ String.intercalate ", " (entryLiterals es) ++ "\x7d"
def literals : List Value → List String
  | [] => []
  | v :: vs => literal v :: literals vs
def entryLiterals : List (Text × Value) → List String
  | [] => []
  | (k, v) :: es => (Text.quotedString k ++ ": " ++ literal v) :: entryLiterals es
end

mutual
/-- Whether no integer in a value is too long to be spelled. -/
def isSpellable : Value → Bool
  | .int i => i.natAbs < 10 ^ Text.maxDigits
  | .list vs => areSpellable vs
  | .table es => areEntriesSpellable es
  | _ => true
def areSpellable : List Value → Bool
  | [] => true
  | v :: vs => isSpellable v && areSpellable vs
def areEntriesSpellable : List (Text × Value) → Bool
  | [] => true
  | (_, v) :: es => isSpellable v && areEntriesSpellable es
end

end Value

end StyleNesting
