/-
  StyleNesting/Pass/Sharing.lean
  ==============================
  **Which declarations sibling rules share.**  Declarations that occur in two or
  more of the rules are grouped by the exact set of rules that hold them.
  Groups come in the lexicographic order of their index lists, and the
  declarations of a group in the order of their first occurrence.
-/
import StyleNesting.Sheet.Node

namespace StyleNesting

/-- Declarations with the rules that share them. -/
structure SharingGroup where
  /-- The positions of the rules, in ascending order. -/
  members : List Nat
  declarations : List Declaration
deriving DecidableEq, Repr

namespace Sharing

/-- Lexicographic order of index lists. -/
def indicesLe : List Nat → List Nat → Bool
  | [], _ => true
  | _ :: _, [] => false
  | i :: is, j :: js => i < j || (i == j && indicesLe is js)

/-- The positions, counted from `k`, of the rules that hold a declaration. -/
def holdersFrom (d : Declaration) (k : Nat) : List (List Declaration) → List Nat
  | [] => []
  | ds :: rest =>
    if ds.contains d then k :: holdersFrom d (k + 1) rest else holdersFrom d (k + 1) rest

/-- The positions of the rules that hold a declaration. -/
def holders (contents : List (List Declaration)) (d : Declaration) : List Nat :=
  holdersFrom d 0 contents

/-- The declarations that two or more rules hold, in the order of their first
    occurrence, each with the rules that hold it. -/
def shared (contents : List (List Declaration)) : List (Declaration × List Nat) :=
  (contents.flatten.eraseDups.map fun d => (d, holders contents d)).filter fun s =>
    2 ≤ s.2.length

end Sharing

/-- The sharing groups of some sibling rules. -/
def sharingGroups (rules : List Node) : List SharingGroup :=
  let shared := Sharing.shared (rules.map Node.declarations)
  (Text.sortBy Sharing.indicesLe (shared.map (·.2)).eraseDups).map fun members =>
    ⟨members, (shared.filter fun s => s.2 == members).map (·.1)⟩

end StyleNesting
