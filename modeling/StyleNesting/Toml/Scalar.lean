/-
  StyleNesting/Toml/Scalar.lean
  =============================
  **Strings, numbers, days and times in TOML 1.0.**  Every reader takes what it
  can from the start of a text and gives the value with the rest of the text.
  Decimal integers are read up to a fixed number of digits.
-/
import StyleNesting.Setting.Value
import StyleNesting.Text.Numeral

namespace StyleNesting.Toml

open StyleNesting

/-! ### Faults -/

/-- Why a text is not read. -/
inductive Fault where
  /-- It is not TOML. -/
  | invalid
  /-- It holds a decimal integer of too many digits. -/
  | longInteger (digits : Nat)
deriving DecidableEq, Repr

/-- What is there, or a fault. -/
def orInvalid {α : Type} : Option α → Except Fault α
  | some a => .ok a
  | none => .error .invalid

/-! ### Characters -/

/-- The blanks within a line. -/
def isSpace (c : Char) : Bool := c == ' ' || c == '\t'

/-- Control characters, the tab apart. -/
def isControl (c : Char) : Bool := (c.toNat < 32 && c != '\t') || c.toNat == 127

/-- Whether a key may hold `c` without quotes. -/
def isBareKeyChar (c : Char) : Bool :=
  Text.isAsciiLetter c || Text.isAsciiDigit c || c == '-' || c == '_'

/-- The value of a digit, up to base sixteen. -/
def digitOf (c : Char) : Nat :=
  let n := c.toNat
  if Text.isAsciiDigit c then n - 48 else if n < 97 then n - 55 else n - 87

def isHexDigit (c : Char) : Bool :=
  let n := c.toNat
  Text.isAsciiDigit c || (65 ≤ n && n ≤ 70) || (97 ≤ n && n ≤ 102)

/-- The number that digits spell; underscores between them do not count. -/
def numberOf (base : Nat) (t : Text) : Nat :=
  (t.filter (· != '_')).foldl (fun n c => base * n + digitOf c) 0

/-! ### Strings -/

/-- The character that an escape with `n` hexadecimal digits stands for. -/
def escapedCode (n : Nat) (t : Text) : Option (Char × Text) :=
  let ds := t.take n
  if ds.length = n && ds.all isHexDigit then
    let code := numberOf 16 ds
    if code < 0xD800 || (0xDFFF < code && code < 0x110000) then some (Char.ofNat code, t.drop n)
    else none
  else none

/-- The characters with an escape of one letter. -/
def escapedLetter? (c : Char) : Option Char :=
  if c == 'b' then some '\x08'
  else if c == 't' then some '\t'
  else if c == 'n' then some '\n'
  else if c == 'f' then some '\x0c'
  else if c == 'r' then some '\r'
  else if c == '"' then some '"'
  else if c == '\\' then some '\\'
  else none

/-- Skip what a backslash at the end of a line skips: the rest of the line, which
    is blank, and all blanks and line feeds after it. -/
def skipLineEnd (t : Text) : Option Text :=
  match t.dropWhile isSpace with
  | [] => some []
  | '\n' :: u => some (u.dropWhile fun c => isSpace c || c == '\n')
  | _ => none

/-- Read on in a string between double quotes.  Within three quotes the string
    may hold line feeds, and quotes that are not three in a row. -/
def basicString (multiline : Bool) : Nat → Text → Option (Text × Text)
  | 0, _ => none
  | _ + 1, [] => none
  | fuel + 1, '\\' :: t =>
    match t with
    | [] => none
    | 'u' :: u => do
      let (c, rest) ← escapedCode 4 u
      let (s, rest) ← basicString multiline fuel rest
      some (c :: s, rest)
    | 'U' :: u => do
      let (c, rest) ← escapedCode 8 u
      let (s, rest) ← basicString multiline fuel rest
      some (c :: s, rest)
    | c :: u =>
      if multiline && (isSpace c || c == '\n') then do
        let rest ← skipLineEnd (c :: u)
        basicString multiline fuel rest
      else do
        let e ← escapedLetter? c
        let (s, rest) ← basicString multiline fuel u
        some (e :: s, rest)
  | fuel + 1, '"' :: t =>
    if !multiline then some ([], t)
    else
      match t with
      | '"' :: '"' :: rest => some ([], rest)
      | _ => do
        let (s, rest) ← basicString multiline fuel t
        some ('"' :: s, rest)
  | fuel + 1, c :: t =>
    if isControl c && !(multiline && c == '\n') then none
    else do
      let (s, rest) ← basicString multiline fuel t
      some (c :: s, rest)

/-- Read on in a string between single quotes, in which nothing is escaped. -/
def literalString : Text → Option (Text × Text)
  | [] => none
  | '\'' :: t => some ([], t)
  | c :: t =>
    if isControl c then none
    else do
      let (s, rest) ← literalString t
      some (c :: s, rest)

/-- Read on in a string between three single quotes. -/
def literalLines : Text → Option (Text × Text)
  | [] => none
  | '\'' :: '\'' :: '\'' :: t => some ([], t)
  | c :: t =>
    if isControl c && c != '\n' then none
    else do
      let (s, rest) ← literalLines t
      some (c :: s, rest)

/-- A string of several lines may end with one or two quotes of its own. -/
def extraQuotes (q : Char) (s : Text) (t : Text) : Text × Text :=
  match t with
  | a :: b :: u =>
    if a == q && b == q then (s ++ [q, q], u)
    else if a == q then (s ++ [q], b :: u)
    else (s, t)
  | [a] => if a == q then (s ++ [q], []) else (s, t)
  | [] => (s, t)

/-- A line feed right after the opening quotes is not part of the string. -/
def skipFirstLineEnd : Text → Text
  | '\n' :: t => t
  | t => t

/-- Read a string with its quotes. -/
def string : Text → Option (Text × Text)
  | '"' :: '"' :: '"' :: t => do
    let (s, rest) ← basicString true (t.length + 1) (skipFirstLineEnd t)
    some (extraQuotes '"' s rest)
  | '"' :: t => basicString false (t.length + 1) t
  | '\'' :: '\'' :: '\'' :: t => do
    let (s, rest) ← literalLines (skipFirstLineEnd t)
    some (extraQuotes '\'' s rest)
  | '\'' :: t => literalString t
  | _ => none

/-! ### Days and times -/

/-- Read `n` decimal digits as a number between `low` and `high`. -/
def digitsIn (n low high : Nat) (t : Text) : Option (Nat × Text) :=
  let ds := t.take n
  let v := numberOf 10 ds
  if ds.length = n && ds.all Text.isAsciiDigit && low ≤ v && v ≤ high then some (v, t.drop n)
  else none

/-- Read one given character. -/
def char (c : Char) : Text → Option Text
  | d :: t => if d == c then some t else none
  | [] => none

/-- The fraction of a second, in microseconds; further digits are dropped. -/
def fraction : Text → Nat × Text
  | '.' :: t =>
    match t.takeWhile Text.isAsciiDigit with
    | [] => (0, '.' :: t)
    | ds => (numberOf 10 ((ds ++ List.replicate 6 '0').take 6), t.dropWhile Text.isAsciiDigit)
  | t => (0, t)

/-- Read a time of the day. -/
def clockTime (t : Text) : Option (ClockTime × Text) := do
  let (hour, t) ← digitsIn 2 0 23 t
  let t ← char ':' t
  let (minute, t) ← digitsIn 2 0 59 t
  let t ← char ':' t
  let (second, t) ← digitsIn 2 0 59 t
  let (microsecond, t) := fraction t
  some (⟨hour, minute, second, microsecond⟩, t)

/-- Read a day as it is written; the month may have fewer days. -/
def writtenDate (t : Text) : Option (CalendarDate × Text) := do
  let (year, t) ← digitsIn 4 0 9999 t
  let t ← char '-' t
  let (month, t) ← digitsIn 2 1 12 t
  let t ← char '-' t
  let (day, t) ← digitsIn 2 1 31 t
  some (⟨year, month, day⟩, t)

def isLeapYear (y : Nat) : Bool := y % 4 == 0 && (y % 100 != 0 || y % 400 == 0)

/-- The number of days of a month. -/
def daysIn (y m : Nat) : Nat :=
  if m = 2 then (if isLeapYear y then 29 else 28)
  else if m = 4 ∨ m = 6 ∨ m = 9 ∨ m = 11 then 30
  else 31

/-- Whether a day is on the calendar; the first year is year one. -/
def isOnCalendar (d : CalendarDate) : Bool := 1 ≤ d.year && d.day ≤ daysIn d.year d.month

/-- Read an offset from universal time, in seconds; there may be none. -/
def offset (t : Text) : Option Int × Text :=
  let signed (sign : Int) (u : Text) : Option Int × Text :=
    match (do
      let (hour, u) ← digitsIn 2 0 23 u
      let u ← char ':' u
      let (minute, u) ← digitsIn 2 0 59 u
      some (sign * Int.ofNat (3600 * hour + 60 * minute), u) : Option (Int × Text)) with
    | some (o, u) => (some o, u)
    | none => (none, t)
  match t with
  | 'Z' :: u => (some 0, u)
  | 'z' :: u => (some 0, u)
  | '+' :: u => signed 1 u
  | '-' :: u => signed (-1) u
  | _ => (none, t)

/-- The time after a day, if there is one. -/
def timeAfterDate (t : Text) : Option (ClockTime × Text) :=
  match t with
  | c :: u => if c == 'T' || c == 't' || c == ' ' then clockTime u else none
  | [] => none

/-- Complete a day that was read by the time after it, if there is one. -/
def dateOrDateTime (d : CalendarDate) (t : Text) : Option (Value × Text) :=
  if !isOnCalendar d then none
  else
    match timeAfterDate t with
    | some (time, u) =>
      let (o, rest) := offset u
      some (.dateTime d time o, rest)
    | none => some (.date d, t)

/-! ### Numbers -/

/-- The digits at the start of a text with single underscores between them. -/
def digitRun (isDigit : Char → Bool) : Text → Text × Text
  | [] => ([], [])
  | c :: '_' :: d :: t =>
    if isDigit c && isDigit d then
      let (ds, rest) := digitRun isDigit (d :: t)
      (c :: '_' :: ds, rest)
    else if isDigit c then ([c], '_' :: d :: t)
    else ([], c :: '_' :: d :: t)
  | c :: t =>
    if isDigit c then
      let (ds, rest) := digitRun isDigit t
      (c :: ds, rest)
    else ([], c :: t)

/-- Read a whole number in another base than ten: a letter and its digits. -/
def otherBase : Text → Option (Int × Text)
  | 'x' :: t => based 16 isHexDigit t
  | 'o' :: t => based 8 (fun c => '0' ≤ c && c ≤ '7') t
  | 'b' :: t => based 2 (fun c => c == '0' || c == '1') t
  | _ => none
where
  based (base : Nat) (isDigit : Char → Bool) (t : Text) : Option (Int × Text) :=
    match digitRun isDigit t with
    | ([], _) => none
    | (ds, rest) => some (Int.ofNat (numberOf base ds), rest)

/-- The whole part of a number: a zero, or digits that do not start with one. -/
def wholePart (t : Text) : Option (Text × Text) :=
  match t with
  | '0' :: u => some (['0'], u)
  | _ =>
    match digitRun Text.isAsciiDigit t with
    | ([], _) => none
    | (ds, rest) => some (ds, rest)

/-- The digits after a decimal point, if there are any. -/
def fractionPart (t : Text) : Text × Text :=
  match t with
  | '.' :: u =>
    match digitRun Text.isAsciiDigit u with
    | ([], _) => ([], t)
    | (ds, rest) => (ds, rest)
  | _ => ([], t)

/-- The exponent of a number, if there is one. -/
def exponentPart (t : Text) : Option Int × Text :=
  let digits (sign : Int) (u : Text) : Option Int × Text :=
    match digitRun Text.isAsciiDigit u with
    | ([], _) => (none, t)
    | (ds, rest) => (some (sign * Int.ofNat (numberOf 10 ds)), rest)
  match t with
  | e :: u =>
    if e == 'e' || e == 'E' then
      match u with
      | '+' :: v => digits 1 v
      | '-' :: v => digits (-1) v
      | _ => digits 1 u
    else (none, t)
  | [] => (none, t)

/-- The integer that decimal digits spell, if they are not too many. -/
def decimalInteger (negative : Bool) (whole : Text) : Except Fault Value :=
  let count := Text.digitCount whole
  if Text.maxDigits < count then .error (.longInteger count)
  else
    let n := Int.ofNat (numberOf 10 whole)
    .ok (.int (if negative then -n else n))

/-- Read a decimal number without its sign. -/
def unsignedNumber (negative : Bool) (t : Text) : Except Fault (Value × Text) := do
  let (whole, t) ← orInvalid (wholePart t)
  let (fraction, t) := fractionPart t
  let (exponent, t) := exponentPart t
  if fraction.isEmpty && exponent.isNone then
    return (← decimalInteger negative whole, t)
  else
    return (.float (Double.ofDecimal negative (numberOf 10 (whole ++ fraction))
      (exponent.getD 0 - Int.ofNat (Text.digitCount fraction))), t)

/-- Read a word that stands for an infinity or for no number. -/
def specialNumber (negative : Bool) : Text → Option (Value × Text)
  | 'i' :: 'n' :: 'f' :: t => some (.float (.infinite negative), t)
  | 'n' :: 'a' :: 'n' :: t => some (.float .nan, t)
  | _ => none

/-- Read a number or a word for one, without its sign. -/
def numberOrWord (negative : Bool) (t : Text) : Except Fault (Value × Text) :=
  match specialNumber negative t with
  | some r => .ok r
  | none => unsignedNumber negative t

/-- Read a number. -/
def number (t : Text) : Except Fault (Value × Text) :=
  match t with
  | '0' :: u =>
    match otherBase u with
    | some (n, rest) => .ok (.int n, rest)
    | none => unsignedNumber false t
  | '+' :: u => numberOrWord false u
  | '-' :: u => numberOrWord true u
  | _ => numberOrWord false t

/-- Read a day, a time or a number. -/
def plainScalar (t : Text) : Except Fault (Value × Text) :=
  match writtenDate t with
  | some (d, rest) => orInvalid (dateOrDateTime d rest)
  | none =>
    match clockTime t with
    | some (time, rest) => .ok (.time time, rest)
    | none => number t

end StyleNesting.Toml
