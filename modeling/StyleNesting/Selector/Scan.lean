/-
  StyleNesting/Selector/Scan.lean
  ===============================
  **The lexical scan of selector text.**  A scan walks the text from the left
  and knows, at every character, whether it stands after a backslash, inside a
  quoted string, or inside brackets.  Text is cut only at separators that are
  met in the start state.

  The scan is lexical: a closing bracket counts only when it closes the
  innermost open bracket, and a backslash escapes the next character inside
  strings too.
-/
import StyleNesting.Text.Basic

namespace StyleNesting.Selector

open StyleNesting

/-- What the scan knows before a character. -/
structure Scan where
  /-- The previous character was a backslash that escapes this one. -/
  escaped : Bool
  /-- The quote that ends the string the scan is in. -/
  quote : Option Char
  /-- The brackets that are still to come, innermost first. -/
  closers : List Char
deriving DecidableEq, Repr

/-- The state at the start of a text: outside of everything. -/
def Scan.start : Scan := ⟨false, none, []⟩

/-- Whether `c` opens or closes a string. -/
def isQuote (c : Char) : Bool := c == '"' || c == '\''

/-- The bracket that closes `c`, if `c` opens one. -/
def closer? (c : Char) : Option Char :=
  if c == '(' then some ')' else if c == '[' then some ']' else none

/-- The state after a character. -/
def Scan.step (s : Scan) (c : Char) : Scan :=
  if s.escaped then { s with escaped := false }
  else if c == '\\' then { s with escaped := true }
  else
    match s.quote with
    | some q => if c == q then { s with quote := none } else s
    | none =>
      if isQuote c then { s with quote := some c }
      else
        match closer? c with
        | some b => { s with closers := b :: s.closers }
        | none =>
          match s.closers with
          | b :: bs => if c == b then { s with closers := bs } else s
          | [] => s

/-- The state after a whole text. -/
def Scan.run (s : Scan) (t : Text) : Scan := t.foldl Scan.step s

theorem Scan.run_append (s : Scan) (t u : Text) : s.run (t ++ u) = (s.run t).run u :=
  List.foldl_append

/-- Whether a text leaves the scan as it found it: every string and bracket is
    closed and no backslash is left over. -/
def balanced (t : Text) : Bool := Scan.start.run t == Scan.start

/-- Put a character in front of the first piece. -/
def consFirst (c : Char) : List Text → List Text
  | [] => [[c]]
  | p :: ps => (c :: p) :: ps

/-- Cut a text at the separators that are met in the start state.  The
    separators are dropped; there is one more piece than there are cuts. -/
def cut (isSep : Char → Bool) : Scan → Text → List Text
  | _, [] => [[]]
  | s, c :: t =>
    if s == Scan.start && isSep c then [] :: cut isSep s t
    else consFirst c (cut isSep (s.step c) t)

end StyleNesting.Selector
