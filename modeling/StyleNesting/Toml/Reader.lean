/-
  StyleNesting/Toml/Reader.lean
  =============================
  **Reading TOML 1.0.**  A document is a sequence of lines: a key with its
  value, a table header, a header for a list of tables, a comment, or nothing.
  A text that is not a document gives the first fault in it.
-/
import StyleNesting.Toml.Document
import StyleNesting.Toml.Scalar

namespace StyleNesting.Toml

open StyleNesting

/-- Skip the blanks of a line. -/
def skipSpace (t : Text) : Text := t.dropWhile isSpace

/-- Skip a comment, up to the end of its line. -/
def skipComment (t : Text) : Option Text :=
  match t with
  | '#' :: u =>
    if (u.takeWhile (· != '\n')).any isControl then none else some (u.dropWhile (· != '\n'))
  | _ => some t

/-- Skip blanks, line feeds and comments between the values of a list. -/
def skipBetween : Nat → Text → Option Text
  | 0, _ => none
  | fuel + 1, t =>
    match t.dropWhile fun c => isSpace c || c == '\n' with
    | '#' :: u => do
      let rest ← skipComment ('#' :: u)
      skipBetween fuel rest
    | rest => some rest

/-! ### Keys -/

/-- Read one name of a dotted key. -/
def keyPart (t : Text) : Option (Text × Text) :=
  match t with
  | '\'' :: u => literalString u
  | '"' :: u => basicString false (u.length + 1) u
  | _ =>
    match t.takeWhile isBareKeyChar with
    | [] => none
    | name => some (name, t.dropWhile isBareKeyChar)

/-- Read a dotted key and the blanks after it. -/
def key : Nat → Text → Option (Key × Text)
  | 0, _ => none
  | fuel + 1, t => do
    let (name, rest) ← keyPart t
    match skipSpace rest with
    | '.' :: u => do
      let (names, rest) ← key fuel (skipSpace u)
      some (name :: names, rest)
    | rest => some ([name], rest)

/-- Read a dotted key with the equals sign after it. -/
def keyAndEquals (t : Text) : Option (Key × Text) := do
  let (k, rest) ← key (t.length + 1) t
  let rest ← char '=' rest
  some (k, skipSpace rest)

/-! ### Values -/

mutual
/-- Read a value. -/
def value : Nat → Text → Except Fault (Value × Text)
  | 0, _ => .error .invalid
  | fuel + 1, t =>
    match t with
    | '"' :: _ => orInvalid ((string t).map fun (s, rest) => (.text s, rest))
    | '\'' :: _ => orInvalid ((string t).map fun (s, rest) => (.text s, rest))
    | 't' :: 'r' :: 'u' :: 'e' :: rest => .ok (.bool true, rest)
    | 'f' :: 'a' :: 'l' :: 's' :: 'e' :: rest => .ok (.bool false, rest)
    | '[' :: u => do
      let (vs, rest) ← listValues fuel (← orInvalid (skipBetween (u.length + 1) u))
      .ok (.list vs, rest)
    | '{' :: u =>
      match skipSpace u with
      | '}' :: rest => .ok (.table [], rest)
      | rest => do
        let (entries, rest) ← inlineEntries fuel [] {} rest
        .ok (.table entries, rest)
    | _ => plainScalar t
/-- Read the values of a list up to its closing bracket. -/
def listValues : Nat → Text → Except Fault (List Value × Text)
  | 0, _ => .error .invalid
  | fuel + 1, t =>
    match t with
    | ']' :: rest => .ok ([], rest)
    | _ => do
      let (v, rest) ← value fuel t
      match ← orInvalid (skipBetween (rest.length + 1) rest) with
      | ']' :: rest => .ok ([v], rest)
      | ',' :: rest => do
        let (vs, rest) ← listValues fuel (← orInvalid (skipBetween (rest.length + 1) rest))
        .ok (v :: vs, rest)
      | _ => .error .invalid
/-- Read the entries of a table in braces up to its closing brace. -/
def inlineEntries : Nat → Table → Marks → Text → Except Fault (Table × Text)
  | 0, _, _, _ => .error .invalid
  | fuel + 1, entries, marks, t => do
    let (k, rest) ← orInvalid (keyAndEquals t)
    let (v, rest) ← value fuel rest
    let name ← orInvalid k.getLast?
    if marks.isFrozen k then .error .invalid
    else
      let entries ← orInvalid (updateTable false k.dropLast (addEntry name v) entries)
      match skipSpace rest with
      | '}' :: rest => .ok (entries, rest)
      | ',' :: rest =>
        let frozen := if isBracketed v then k :: marks.frozen else marks.frozen
        inlineEntries fuel entries { marks with frozen := frozen } (skipSpace rest)
      | _ => .error .invalid
end

/-! ### Statements -/

/-- Read a header after its opening bracket, up to the closing one. -/
def headerKey (t : Text) : Option (Key × Text) := do
  let (k, rest) ← key (t.length + 1) (skipSpace t)
  let rest ← char ']' rest
  some (k, rest)

/-- Read the statement at the start of a line, if there is one. -/
def statement (d : Document) (t : Text) : Except Fault (Document × Text) :=
  match t with
  | [] => .ok (d, t)
  | '\n' :: _ => .ok (d, t)
  | '#' :: _ => .ok (d, t)
  | '[' :: '[' :: u => orInvalid do
    let (k, rest) ← headerKey u
    let rest ← char ']' rest
    some (← d.endSection.openListTable k, rest)
  | '[' :: u => orInvalid do
    let (k, rest) ← headerKey u
    some (← d.endSection.openTable k, rest)
  | _ => do
    let (k, rest) ← orInvalid (keyAndEquals t)
    let (v, rest) ← value (rest.length + 1) rest
    .ok (← orInvalid (d.assign k v), rest)

/-- Read the lines of a document.  Every line takes at least one character. -/
def statements : Nat → Document → Text → Except Fault Document
  | 0, d, _ => .ok d
  | fuel + 1, d, t => do
    let (d, rest) ← statement d (skipSpace t)
    match ← orInvalid (skipComment (skipSpace rest)) with
    | [] => .ok d
    | '\n' :: rest => statements fuel d rest
    | _ => .error .invalid

/-- Read a document. -/
def read (t : Text) : Except Fault Table := (statements (t.length + 1) {} t).map (·.entries)

end StyleNesting.Toml
