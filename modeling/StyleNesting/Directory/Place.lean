/-
  StyleNesting/Directory/Place.lean
  =================================
  **Paths and the places they lead to.**  A path is a text of names with slashes
  between them.  It starts in the working directory or, with a slash in front,
  at the top.  Empty names and a dot stay where they are, two dots lead one level
  up, and any other name leads down.

  A place is written without detours, so two paths lead to the same place
  exactly if their places are equal.
-/
import StyleNesting.Text.Basic

namespace StyleNesting

/-! ### Places -/

/-- The folders that need no name. -/
inductive Base where
  /-- The folder that has no folder above it. -/
  | top
  /-- The folder so many levels above the working directory. -/
  | above (levels : Nat)
deriving DecidableEq, Repr

/-- A place where a file or a folder may be. -/
structure Place where
  base : Base := .above 0
  /-- The names that lead down from the base. -/
  names : List Text := []
deriving DecidableEq, Repr

namespace Place

/-- The place one level up; there is none above the top. -/
def up (p : Place) : Place :=
  match p.names, p.base with
  | [], .top => p
  | [], .above n => ⟨.above (n + 1), []⟩
  | _ :: _, _ => { p with names := p.names.dropLast }

/-- The place that a name leads down to. -/
def child (p : Place) (name : Text) : Place := { p with names := p.names ++ [name] }

/-- Whether `p` lies in the folder `q`, at any depth. -/
def isBelow (p q : Place) : Bool :=
  p.base == q.base && q.names.isPrefixOf p.names && q.names != p.names

/-- Whether a place lies in the working directory. -/
def isInside (p : Place) : Bool := p.base == .above 0

end Place

/-! ### Paths -/

namespace Path

/-- The name that stays in place. -/
def dot : Text := ['.']

/-- The name that leads up. -/
def dots : Text := ['.', '.']

/-- The pieces of a path between its slashes. -/
def pieces : Text → List Text
  | [] => [[]]
  | '/' :: t => [] :: pieces t
  | c :: t =>
    match pieces t with
    | [] => [[c]]
    | p :: ps => (c :: p) :: ps

/-- The names in a path. -/
def names (path : Text) : List Text := (pieces path).filter (!·.isEmpty)

/-- Whether a path starts at the top. -/
def isFromTop (path : Text) : Bool := path.head? == some '/'

/-- Whether a path ends with a slash, and so can only mean a folder. -/
def hasFinalSlash (path : Text) : Bool := path.getLast? == some '/'

/-- The place that a path starts at. -/
def start (path : Text) : Place := if isFromTop path then ⟨.top, []⟩ else {}

/-- A path without the slashes and dots that stay in place. -/
def tidy (path : Text) : Text :=
  match (names path).filter (· != dot) with
  | [] => if isFromTop path then ['/'] else dot
  | ns => (if isFromTop path then ['/'] else []) ++ Text.join ['/'] ns

end Path

namespace Place

/-- The place after one more name of a path. -/
def follow (p : Place) (name : Text) : Place :=
  if name == Path.dot then p else if name == Path.dots then p.up else p.child name

/-- The place that a path leads to, if all its names but the last are folders. -/
def ofPath (path : Text) : Place := (Path.names path).foldl follow (Path.start path)

/-- The path that leads straight to a place. -/
def path (p : Place) : Text :=
  match p.base with
  | .top => '/' :: Text.join ['/'] p.names
  | .above n => Text.join ['/'] (List.replicate n Path.dots ++ p.names)

end Place

end StyleNesting
