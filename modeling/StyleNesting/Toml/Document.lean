/-
  StyleNesting/Toml/Document.lean
  ===============================
  **A TOML document as it grows.**  Statements add to a table of tables; which
  of them are allowed depends on how the tables they touch came about.  A table
  that a header or a dotted key has made cannot be opened again by a header, and
  what was written in brackets or braces cannot be added to.
-/
import StyleNesting.Setting.Value

namespace StyleNesting.Toml

open StyleNesting

/-- A dotted key: the names from the outermost table inwards. -/
abbrev Key := List Text

/-- Change the table at a key; tables on the way that are not there yet are made.
    With `intoLists`, a list on the way stands for its last table. -/
def updateTable (intoLists : Bool) : Key → (Table → Option Table) → Table → Option Table
  | [], change, entries => change entries
  | k :: rest, change, entries =>
    match Table.find? entries k with
    | none => do
      let inner ← updateTable intoLists rest change []
      some (entries ++ [(k, .table inner)])
    | some (.table inner) => do
      let inner ← updateTable intoLists rest change inner
      some (Table.replace entries k (.table inner))
    | some (.list vs) =>
      match intoLists, vs.getLast? with
      | true, some (.table inner) => do
        let inner ← updateTable intoLists rest change inner
        some (Table.replace entries k (.list (vs.dropLast ++ [.table inner])))
      | _, _ => none
    | some _ => none

/-- Add an entry under a name that is not there yet. -/
def addEntry (name : Text) (v : Value) (entries : Table) : Option Table :=
  match Table.find? entries name with
  | none => some (entries ++ [(name, v)])
  | some _ => none

/-- Put an empty table at the end of a list of tables. -/
def addToList (name : Text) (entries : Table) : Option Table :=
  match Table.find? entries name with
  | none => some (entries ++ [(name, .list [.table []])])
  | some (.list vs) => some (Table.replace entries name (.list (vs ++ [.table []])))
  | some _ => none

/-- Whether a value was written in brackets or braces. -/
def isBracketed : Value → Bool
  | .list _ => true
  | .table _ => true
  | _ => false

/-- Keys of which something is known. -/
structure Marks where
  /-- The tables that a header cannot open any more. -/
  closed : List Key := []
  /-- The values that were written in brackets or braces. -/
  frozen : List Key := []

/-- Whether a key is, or lies inside, a frozen value. -/
def Marks.isFrozen (m : Marks) (k : Key) : Bool := m.frozen.any (·.isPrefixOf k)

/-- A document and the header that its next entries stand under. -/
structure Document where
  entries : Table := []
  marks : Marks := {}
  /-- The tables made by dotted keys since the last header. -/
  pending : List Key := []
  header : Key := []

namespace Document

/-- A header ends the section before it: its dotted tables are now closed. -/
def endSection (d : Document) : Document :=
  { d with marks := { d.marks with closed := d.marks.closed ++ d.pending }, pending := [] }

/-- Open the table at a key. -/
def openTable (d : Document) (k : Key) : Option Document :=
  if d.marks.closed.contains k || d.marks.isFrozen k then none
  else do
    let entries ← updateTable true k some d.entries
    some { d with
      entries := entries
      marks := { d.marks with closed := k :: d.marks.closed }
      header := k }

/-- Open a new table at the end of the list at a key.  What was known of the
    table before it is forgotten. -/
def openListTable (d : Document) (k : Key) : Option Document :=
  if d.marks.isFrozen k then none
  else do
    let name ← k.getLast?
    let entries ← updateTable true k.dropLast (addToList name) d.entries
    some { d with
      entries := entries
      marks := {
        closed := k :: d.marks.closed.filter (!k.isPrefixOf ·)
        frozen := d.marks.frozen.filter (!k.isPrefixOf ·) }
      header := k }

/-- The tables on the way to a dotted key: its proper beginnings, the empty one apart. -/
def tablesOnTheWay (k : Key) : List Key := (List.range k.length).filterMap fun i =>
  if i = 0 then none else some (k.take i)

/-- Give a dotted key under the current header a value. -/
def assign (d : Document) (k : Key) (v : Value) : Option Document :=
  let passed := (tablesOnTheWay k).map (d.header ++ ·)
  let parent := d.header ++ k.dropLast
  if passed.any d.marks.closed.contains || d.marks.isFrozen parent then none
  else do
    let name ← k.getLast?
    let entries ← updateTable true parent (addEntry name v) d.entries
    some { d with
      entries := entries
      marks := { d.marks with
        frozen := if isBracketed v then (d.header ++ k) :: d.marks.frozen else d.marks.frozen }
      pending := d.pending ++ passed }

end Document

end StyleNesting.Toml
