/-
  StyleNesting/Text/Quoted.lean
  =============================
  **The quoted form of a text**, as messages show it: delimited by single
  quotes, or by double quotes when the text holds single quotes only, with the
  delimiter, the backslash and every character that is not printable escaped.
-/
import StyleNesting.Text.Printable

namespace StyleNesting.Text

/-- The hexadecimal digits of `n` in lower case, at least `width` of them. -/
def hex (width n : Nat) : Text :=
  let ds := Nat.toDigits 16 n
  List.replicate (width - ds.length) '0' ++ ds

/-- How one character stands between delimiters `delim`. -/
def quotedChar (delim c : Char) : Text :=
  if c == delim || c == '\\' then ['\\', c]
  else if c == '\n' then ['\\', 'n']
  else if c == '\r' then ['\\', 'r']
  else if c == '\t' then ['\\', 't']
  else if isPrintable c then [c]
  else if c.toNat < 0x100 then '\\' :: 'x' :: hex 2 c.toNat
  else if c.toNat < 0x10000 then '\\' :: 'u' :: hex 4 c.toNat
  else '\\' :: 'U' :: hex 8 c.toNat

/-- The delimiter of the quoted form: the double quote only where it saves escapes. -/
def delimiter (t : Text) : Char :=
  if t.contains '\'' && !t.contains '"' then '"' else '\''

/-- The quoted form of a text. -/
def quoted (t : Text) : Text :=
  let d := delimiter t
  d :: t.flatMap (quotedChar d) ++ [d]

/-- The quoted form as a string for messages. -/
def quotedString (t : Text) : String := String.ofList (quoted t)

end StyleNesting.Text
