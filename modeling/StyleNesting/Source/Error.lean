/-
  StyleNesting/Source/Error.lean
  ==============================
  **Why a text is no stylesheet**: what was found, where, and what could have
  stood there instead.
-/
import StyleNesting.Sheet.Node
import StyleNesting.Source.Lexeme
import StyleNesting.Text.Quoted

namespace StyleNesting.Source

open StyleNesting

/-- What stands where something else should. -/
inductive Found where
  /-- A lexeme that does not fit. -/
  | lexeme (terminal : Terminal) (text : Text)
  /-- A character at which no lexeme starts. -/
  | character (c : Char)
deriving DecidableEq, Repr

/-- A place where reading stopped. -/
structure ParseError where
  found : Found
  position : Position
  /-- The terminals that could have stood there, in the order of their names. -/
  expected : List Terminal
deriving DecidableEq, Repr

/-- The first line of the report. -/
def ParseError.message (e : ParseError) : String :=
  let line := toString e.position.line
  let column := toString e.position.column
  match e.found with
  | .lexeme terminal text =>
    "Unexpected token Token('" ++ terminal.name ++ "', " ++ Text.quotedString text ++
      ") at line " ++ line ++ ", column " ++ column ++ "."
  | .character c =>
    "No terminal matches '" ++ c.toString ++ "' in the current parser context, at line " ++
      line ++ " col " ++ column

/-- The places between lexemes that differ in what may come next. -/
inductive Place where
  /-- Outside of all blocks, at the start or after a semicolon of its own. -/
  | sheet
  /-- Outside of all blocks, after a statement. -/
  | afterStatement
  /-- Inside a block. -/
  | block
  /-- Right after an at-keyword. -/
  | afterKeyword
  /-- After the prelude of an at-rule. -/
  | afterPrelude
deriving DecidableEq, Repr

/-- What may come next. -/
def Place.accepts : Place → List Terminal
  | .sheet => [.textEnd, .atKeyword, .selector, .semicolon]
  | .afterStatement => [.textEnd, .atKeyword, .selector, .semicolon]
  | .block => [.atKeyword, .declaration, .rightBrace, .selector, .semicolon]
  | .afterKeyword => [.atPrelude, .leftBrace, .semicolon]
  | .afterPrelude => [.leftBrace, .semicolon]

/-- What is looked for in the text.  After a statement the look-ahead is shared
    with the inside of blocks. -/
def Place.triedLexemes : Place → List Terminal
  | .sheet => [.atKeyword, .selector, .semicolon]
  | .afterStatement => [.atKeyword, .declaration, .rightBrace, .selector, .semicolon]
  | .block => [.atKeyword, .declaration, .rightBrace, .selector, .semicolon]
  | .afterKeyword => [.atPrelude, .leftBrace, .semicolon]
  | .afterPrelude => [.leftBrace, .semicolon]

/-- The error at a character where nothing that fits matches. -/
def unexpected (place : Place) (position : Position) (c : Char) (t : Text) : ParseError :=
  match anyLexeme? (c :: t) with
  | some (terminal, n) => ⟨.lexeme terminal ((c :: t).take n), position, place.accepts⟩
  | none => ⟨.character c, position, place.triedLexemes⟩

/-- The error at the end of a text; `last` is where its last lexeme starts. -/
def unexpectedEnd (place : Place) (last : Position) : ParseError :=
  ⟨.lexeme .textEnd [], last, place.accepts⟩

end StyleNesting.Source
