/-
  StyleNesting/Source/Lexeme.lean
  ===============================
  **The terminals of stylesheet text** and where they match.

  Most terminals are runs of *items*: a character that is none of the braces,
  the semicolon, a quote or a backslash; a backslash with the character after
  it, unless that is a line feed; or a closed string.  `runLength` measures the
  longest run of items at the start of a text.  A selector is a run that stops
  before an opening brace, a declaration is a name, a colon and a run that stops
  before a semicolon or a closing brace, so the two never meet.
-/
import StyleNesting.Selector.Scan
import StyleNesting.Text.Word

namespace StyleNesting.Source

open StyleNesting

/-- The terminals, with the end of the text as one of them. -/
inductive Terminal where
  | atKeyword
  | atPrelude
  | declaration
  | leftBrace
  | rightBrace
  | selector
  | semicolon
  | textEnd
deriving DecidableEq, Repr

/-- The name under which a terminal appears in messages. -/
def Terminal.name : Terminal → String
  | .atKeyword => "AT_KEYWORD"
  | .atPrelude => "AT_PRELUDE"
  | .declaration => "DECLARATION"
  | .leftBrace => "LBRACE"
  | .rightBrace => "RBRACE"
  | .selector => "SELECTOR"
  | .semicolon => "SEMICOLON"
  | .textEnd => "$END"

/-! ### Runs of items -/

/-- The braces and the semicolon: what no run goes past. -/
def isStop (c : Char) : Bool := c == '{' || c == '}' || c == ';'

/-- The length of the longest run of items at the start of a text.  With a
    quote, the text starts inside a string that the quote closes; then there is
    no run at all if the string is not closed. -/
def runFrom : Option Char → Text → Option Nat
  | none, [] => some 0
  | some _, [] => none
  | none, '\\' :: [] => some 0
  | some _, '\\' :: [] => none
  | none, '\\' :: c :: t => if c == '\n' then some 0 else (runFrom none t).map (· + 2)
  | some q, '\\' :: c :: t => if c == '\n' then none else (runFrom (some q) t).map (· + 2)
  | none, c :: t =>
    if isStop c then some 0
    else if Selector.isQuote c then
      match runFrom (some c) t with
      | some n => some (n + 1)
      | none => some 0
    else (runFrom none t).map (· + 1)
  | some q, c :: t => (runFrom (if c == q then none else some q) t).map (· + 1)

/-- The length of the longest run of items at the start of a text. -/
def runLength (t : Text) : Nat := (runFrom none t).getD 0

/-! ### Where each terminal matches

Each function gives the length of the lexeme at the start of a text. -/

/-- A selector starts with an item that is neither blank nor an at sign, and
    runs up to an opening brace. -/
def selectorLength? (t : Text) : Option Nat :=
  match t with
  | [] => none
  | c :: _ =>
    if c == '@' || Text.isBlank c then none
    else
      let n := runLength t
      if n = 0 then none
      else match t.drop n with
        | '{' :: _ => some n
        | _ => none

/-- Whether `c` may stand in the name of a property. -/
def isNameChar (c : Char) : Bool :=
  !(isStop c || c == ':' || c == '@' || c == '\\' || Selector.isQuote c || Text.isBlank c)

/-- A declaration is a name, blanks, a colon, and a run up to a semicolon or a
    closing brace. -/
def declarationLength? (t : Text) : Option Nat :=
  let name := t.takeWhile isNameChar
  let rest := t.dropWhile isNameChar
  let blanks := rest.takeWhile Text.isBlank
  match name, rest.dropWhile Text.isBlank with
  | _ :: _, ':' :: value =>
    let n := runLength value
    match value.drop n with
    | ';' :: _ => some (name.length + blanks.length + 1 + n)
    | '}' :: _ => some (name.length + blanks.length + 1 + n)
    | _ => none
  | _, _ => none

/-- An at-keyword is an at sign with hyphens and word characters. -/
def atKeywordLength? : Text → Option Nat
  | '@' :: t =>
    match t.takeWhile fun c => c == '-' || Text.isWord c with
    | [] => none
    | name => some (name.length + 1)
  | _ => none

/-- The prelude of an at-rule is any non-empty run. -/
def atPreludeLength? (t : Text) : Option Nat :=
  let n := runLength t
  if n = 0 then none else some n

/-- The first terminal that matches, in the order in which they are tried when
    nothing that fits the place does. -/
def anyLexeme? (t : Text) : Option (Terminal × Nat) :=
  match selectorLength? t with
  | some n => some (.selector, n)
  | none =>
    match declarationLength? t with
    | some n => some (.declaration, n)
    | none =>
      match atPreludeLength? t with
      | some n => some (.atPrelude, n)
      | none =>
        match t with
        | '{' :: _ => some (.leftBrace, 1)
        | '}' :: _ => some (.rightBrace, 1)
        | ';' :: _ => some (.semicolon, 1)
        | _ => none

/-- The blanks that may stand between lexemes. -/
def isLayout (c : Char) : Bool :=
  c == ' ' || c == '\t' || c == '\x0c' || c == '\r' || c == '\n'

end StyleNesting.Source
