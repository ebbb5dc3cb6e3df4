/-
  StyleNesting/Session/Label.lean
  ===============================
  **Labels**: the names under which the nodes of a session are shown.  A node
  may have several labels and is shown under its oldest; one that has none is
  given a number the first time it has to be shown.
-/
import StyleNesting.Session.Basic

namespace StyleNesting

/-- The labels given so far, oldest first. -/
structure Labels where
  entries : List (Text × Handle) := []
  /-- How many nodes were given a number. -/
  numbered : Nat := 0

namespace Labels

/-- The node with a label; a label given again stands for the newer node. -/
def find? (ls : Labels) (label : Text) : Option Handle :=
  (ls.entries.find? fun e => e.1 == label).map (·.2)

/-- Give a node a label.  A label that is already there moves to the node. -/
def add (ls : Labels) (label : Text) (h : Handle) : Labels :=
  if ls.entries.any fun e => e.1 == label then
    { ls with entries := ls.entries.map fun e => if e.1 == label then (e.1, h) else e }
  else { ls with entries := ls.entries ++ [(label, h)] }

/-- The label that a node is shown under. -/
def nameOf (ls : Labels) (h : Handle) : Text × Labels :=
  match ls.entries.find? fun e => e.2 == h with
  | some e => (e.1, ls)
  | none =>
    let n := ls.numbered + 1
    let label := '#' :: (toString n).toList
    (label, { entries := ls.entries ++ [(label, h)], numbered := n })

/-- The labels that some nodes are shown under. -/
def namesOf (ls : Labels) : List Handle → List Text × Labels
  | [] => ([], ls)
  | h :: hs =>
    let (name, ls') := ls.nameOf h
    let (names, ls'') := namesOf ls' hs
    (name :: names, ls'')

mutual
/-- The outline of a node: its label, and the outlines of its children in
    parentheses if it is a block. -/
def outline (ls : Labels) : Node → Text × Labels
  | .block o _ ns =>
    let (name, ls') := ls.nameOf (o.handle.getD 0)
    let (inner, ls'') := outlines ls' ns
    (name ++ '(' :: Text.join [' '] inner ++ [')'], ls'')
  | .declaration o _ => ls.nameOf (o.handle.getD 0)
  | .leaf o => ls.nameOf (o.handle.getD 0)
def outlines (ls : Labels) : List Node → List Text × Labels
  | [] => ([], ls)
  | n :: ns =>
    let (t, ls') := outline ls n
    let (ts, ls'') := outlines ls' ns
    (t :: ts, ls'')
end

/-- The outlines of all trees whose tops have labels, once for every label. -/
def forest (ls : Labels) (s : Session) : List Text × Labels :=
  let tops := ls.entries.filterMap fun e => s.trees.find? (Node.hasHandle e.2)
  ls.outlines tops

end Labels

end StyleNesting
