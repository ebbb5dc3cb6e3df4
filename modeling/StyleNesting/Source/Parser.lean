/-
  StyleNesting/Source/Parser.lean
  ===============================
  **Reading a stylesheet.**  After its comments are blanked, a text is read
  lexeme by lexeme into a tree: a selector opens a rule, an at-keyword with its
  prelude opens an at-rule or, before a semicolon, is a statement; declarations
  stand inside blocks only; semicolons of their own mean nothing.

  The reader keeps the blocks that are open, innermost first, and the children
  read so far of the innermost one.
-/
import StyleNesting.Source.Comment
import StyleNesting.Source.Error

namespace StyleNesting.Source

open StyleNesting

/-! ### What a lexeme means -/

/-- The place after a text that starts at `p`. -/
def advance (p : Position) (t : Text) : Position :=
  t.foldl (fun p c => if c == '\n' then ⟨p.line + 1, 1⟩ else ⟨p.line, p.column + 1⟩) p

/-- Whether a character stands for the lower-case letter `l`, ignoring case.  The
    dotted capital and the dotless small letter count as an i. -/
def standsFor (l c : Char) : Bool :=
  c == l || c.toLower == l || (l == 'i' && (c.toNat == 0x130 || c.toNat == 0x131))

/-- What is left of a text after a word in lower case, ignoring case. -/
def afterWord? : Text → Text → Option Text
  | [], t => some t
  | _ :: _, [] => none
  | l :: ls, c :: t => if standsFor l c then afterWord? ls t else none

/-- Whether a text is the mark of an important declaration, with blanks around
    its two halves. -/
def isImportantMark (t : Text) : Bool :=
  match t.dropWhile Text.isBlank with
  | '!' :: u =>
    match afterWord? ['i', 'm', 'p', 'o', 'r', 't', 'a', 'n', 't'] (u.dropWhile Text.isBlank) with
    | some rest => rest.all Text.isBlank
    | none => false
  | _ => false

/-- Take the mark of an important declaration off the end of a value, with the
    blanks in front of it. -/
def splitImportant : Text → Text × Bool
  | [] => ([], false)
  | c :: t =>
    if isImportantMark (c :: t) then ([], true)
    else
      let (value, important) := splitImportant t
      (c :: value, important)

/-- The declaration that a lexeme spells. -/
def declarationOf (lexeme : Text) : Declaration :=
  let property := lexeme.takeWhile (· != ':')
  let (value, important) := splitImportant (Text.trim ((lexeme.dropWhile (· != ':')).drop 1))
  ⟨Text.trim property, value, important⟩

/-! ### The reader -/

/-- A block that is open, and the nodes that stand before it in the block around it. -/
structure Frame where
  origin : Origin
  header : Header
  before : List Node
deriving Repr

/-- What has been read, and what is still to read. -/
structure Reader where
  /-- The children read so far of the innermost open block. -/
  nodes : List Node
  /-- The open blocks, innermost first. -/
  opened : List Frame
  /-- Whether the last lexeme ended a statement. -/
  afterStatement : Bool
  /-- Where the last lexeme starts. -/
  last : Position
  /-- Where the rest starts. -/
  here : Position
  rest : Text
deriving Repr

/-- The reader in front of a text. -/
def Reader.start (t : Text) : Reader := ⟨[], [], false, ⟨1, 1⟩, ⟨1, 1⟩, t⟩

/-- The place the reader is at. -/
def Reader.place (r : Reader) : Place :=
  match r.opened with
  | _ :: _ => .block
  | [] => if r.afterStatement then .afterStatement else .sheet

/-- Skip the blanks between lexemes. -/
def Reader.skipLayout (r : Reader) : Reader :=
  { r with
    here := advance r.here (r.rest.takeWhile isLayout)
    rest := r.rest.dropWhile isLayout }

/-- Move past `n` characters that belong to the lexeme at `last`. -/
def Reader.take (r : Reader) (last : Position) (n : Nat) (afterStatement : Bool) : Reader :=
  { r with
    afterStatement := afterStatement
    last := last
    here := advance r.here (r.rest.take n)
    rest := r.rest.drop n }

/-- Open a block whose header was read at `origin`. -/
def Reader.openBlock (r : Reader) (origin : Position) (h : Header) : Reader :=
  { r with nodes := [], opened := ⟨{ source := some origin }, h, r.nodes⟩ :: r.opened }

/-- Put a node after the children read so far. -/
def Reader.add (r : Reader) (n : Node) : Reader := { r with nodes := r.nodes ++ [n] }

/-- Close the innermost block. -/
def Reader.closeBlock (r : Reader) : Reader :=
  match r.opened with
  | [] => r
  | f :: fs => { r with nodes := f.before ++ [.block f.origin f.header r.nodes], opened := fs }

/-- Read a rule's selector of length `n`, and the opening brace after it. -/
def Reader.readSelector (r : Reader) (n : Nat) : Reader :=
  let selector := Selector.normalize (r.rest.take n)
  let brace := advance r.here (r.rest.take n)
  (r.openBlock r.here (.rule selector)).take brace (n + 1) false

/-- Read a declaration of length `n`. -/
def Reader.readDeclaration (r : Reader) (n : Nat) : Reader :=
  let node := Node.declaration { source := some r.here } (declarationOf (r.rest.take n))
  (r.add node).take r.here n false

/-- Read an at-rule whose keyword has length `n`: its prelude, and the brace that
    opens its block or the semicolon that ends it. -/
def Reader.readAtRule (r : Reader) (n : Nat) : Except ParseError Reader :=
  let name := (r.rest.take n).drop 1
  let afterName := r.rest.drop n
  let prelude := afterName.take (runLength afterName)
  let params := Text.trim prelude
  let preludeAt := advance r.here (r.rest.take n)
  let stopAt := advance preludeAt prelude
  let length := n + prelude.length
  let place := if prelude.isEmpty then Place.afterKeyword else Place.afterPrelude
  match afterName.drop prelude.length with
  | [] => .error (unexpectedEnd place (if prelude.isEmpty then r.here else preludeAt))
  | '{' :: _ =>
    .ok ((r.openBlock r.here (.atRule name params true)).take stopAt (length + 1) false)
  | ';' :: _ =>
    let node := Node.block { source := some r.here } (.atRule name params false) []
    .ok ((r.add node).take stopAt (length + 1) true)
  | c :: t => .error (unexpected place stopAt c t)

/-- Read the next statement, header or closing brace; the blanks before it are
    already skipped.  At the end of the text there is none. -/
def Reader.step (r : Reader) : Except ParseError (Option Reader) :=
  match r.rest with
  | [] => if r.opened.isEmpty then .ok none else .error (unexpectedEnd .block r.last)
  | c :: t =>
    match selectorLength? (c :: t) with
    | some n => .ok (some (r.readSelector n))
    | none =>
      match if r.opened.isEmpty then none else declarationLength? (c :: t) with
      | some n => .ok (some (r.readDeclaration n))
      | none =>
        match atKeywordLength? (c :: t) with
        | some n => (r.readAtRule n).map some
        | none =>
          if c == ';' then .ok (some (r.take r.here 1 false))
          else if c == '}' && !r.opened.isEmpty then
            .ok (some (r.closeBlock.take r.here 1 true))
          else .error (unexpected r.place r.here c t)

/-- Read on until the end of the text.  Every step takes at least one
    character, so the length of the text is enough fuel. -/
def Reader.run : Nat → Reader → Except ParseError (List Node)
  | 0, r => .ok r.nodes
  | fuel + 1, r =>
    match r.skipLayout.step with
    | .error e => .error e
    | .ok none => .ok r.nodes
    | .ok (some r') => Reader.run fuel r'

/-- Read a text without comments. -/
def read (t : Text) : Except ParseError Node :=
  ((Reader.start t).run (t.length + 1)).map (Node.block {} .sheet)

/-- Read a stylesheet. -/
def parse (t : Text) : Except ParseError Node := read (blankComments t)

end StyleNesting.Source
