/-
  StyleNesting/Sheet/Node.lean
  ============================
  **The stylesheet tree.**  A node is a block with a header and children, a
  declaration, or a bare leaf that holds nothing.  Every node has an origin: the
  place in the source text it was read from, and the handle under which an
  editing session knows it.
-/
import StyleNesting.Selector.Parts

namespace StyleNesting

/-- A place in a source text; a reader counts lines and columns from one, and whoever
    builds a node may give it any place. -/
structure Position where
  line : Int
  column : Int
deriving DecidableEq, Repr

/-- Where a node comes from. -/
structure Origin where
  /-- The place it was read from; nodes built from nothing have none. -/
  source : Option Position := none
  /-- The name an editing session gave to it; a copy has none. -/
  handle : Option Nat := none
deriving DecidableEq, Repr

/-- The origin of a copy: the same place in the source, and no handle. -/
def Origin.ofCopy (o : Origin) : Origin := { o with handle := none }

/-- A property with its value.  Two declarations say the same thing exactly if
    they agree in all three fields; values are compared as text. -/
structure Declaration where
  property : Text
  value : Text
  important : Bool := false
deriving DecidableEq, Repr

/-- What stands in front of a block. -/
inductive Header where
  /-- The whole stylesheet. -/
  | sheet
  /-- A block without any header. -/
  | group
  /-- A selector list. -/
  | rule (selector : Text)
  /-- An at-rule.  One that is a statement, such as an import, has no block. -/
  | atRule (name params : Text) (hasBlock : Bool)
deriving DecidableEq, Repr

/-- A node of the stylesheet tree. -/
inductive Node where
  | block (origin : Origin) (header : Header) (nodes : List Node)
  | declaration (origin : Origin) (content : Declaration)
  | leaf (origin : Origin)
deriving Repr

instance : Inhabited Node := ⟨.leaf {}⟩

namespace Node

/-! ### Equality of trees is decidable -/

mutual
def decEq : (a b : Node) → Decidable (a = b)
  | .block o h ns, .block o' h' ns' =>
    if ho : o = o' then
      if hh : h = h' then
        match decEqAll ns ns' with
        | isTrue hn => isTrue (by rw [ho, hh, hn])
        | isFalse hn => isFalse (by intro e; cases e; exact hn rfl)
      else isFalse (by intro e; cases e; exact hh rfl)
    else isFalse (by intro e; cases e; exact ho rfl)
  | .declaration o c, .declaration o' c' =>
    if h : o = o' ∧ c = c' then isTrue (by rw [h.1, h.2])
    else isFalse (by intro e; cases e; exact h ⟨rfl, rfl⟩)
  | .leaf o, .leaf o' =>
    if h : o = o' then isTrue (by rw [h]) else isFalse (by intro e; cases e; exact h rfl)
  | .block _ _ _, .declaration _ _ => isFalse (by intro e; cases e)
  | .block _ _ _, .leaf _ => isFalse (by intro e; cases e)
  | .declaration _ _, .block _ _ _ => isFalse (by intro e; cases e)
  | .declaration _ _, .leaf _ => isFalse (by intro e; cases e)
  | .leaf _, .block _ _ _ => isFalse (by intro e; cases e)
  | .leaf _, .declaration _ _ => isFalse (by intro e; cases e)
def decEqAll : (as bs : List Node) → Decidable (as = bs)
  | [], [] => isTrue rfl
  | [], _ :: _ => isFalse (by intro e; cases e)
  | _ :: _, [] => isFalse (by intro e; cases e)
  | a :: as, b :: bs =>
    match decEq a b with
    | isFalse h => isFalse (by intro e; cases e; exact h rfl)
    | isTrue h =>
      match decEqAll as bs with
      | isTrue hs => isTrue (by rw [h, hs])
      | isFalse hs => isFalse (by intro e; cases e; exact hs rfl)
end

instance : DecidableEq Node := decEq

/-! ### Fields -/

def origin : Node → Origin
  | .block o _ _ => o
  | .declaration o _ => o
  | .leaf o => o

def setOrigin (o : Origin) : Node → Node
  | .block _ h ns => .block o h ns
  | .declaration _ c => .declaration o c
  | .leaf _ => .leaf o

/-- The children; only blocks have any. -/
def nodes : Node → List Node
  | .block _ _ ns => ns
  | _ => []

/-- Replace the children of a block. -/
def setNodes (ns : List Node) : Node → Node
  | .block o h _ => .block o h ns
  | n => n

/-- Put more children at the end of a block. -/
def append (more : List Node) : Node → Node
  | .block o h ns => .block o h (ns ++ more)
  | n => n

def isBlock : Node → Bool
  | .block _ _ _ => true
  | _ => false

def isRule : Node → Bool
  | .block _ (.rule _) _ => true
  | _ => false

/-- Whether a node is a rule or an at-rule: the blocks that the passes enter. -/
def isStyleBlock : Node → Bool
  | .block _ (.rule _) _ => true
  | .block _ (.atRule _ _ _) _ => true
  | _ => false

/-- The selector of a rule. -/
def selector? : Node → Option Text
  | .block _ (.rule s) _ => some s
  | _ => none

/-- Give a rule another selector. -/
def setSelector (s : Text) : Node → Node
  | .block o (.rule _) ns => .block o (.rule s) ns
  | n => n

/-- The parts of a rule's selector list; a node that is no rule has none. -/
def parts : Node → List Text
  | .block _ (.rule s) _ => Selector.parts s
  | _ => []

/-- What a declaration says. -/
def content? : Node → Option Declaration
  | .declaration _ c => some c
  | _ => none

/-- The rules among the children. -/
def rules (n : Node) : List Node := n.nodes.filter isRule

/-- What the declarations among the children say. -/
def declarations (n : Node) : List Declaration := n.nodes.filterMap content?

/-! ### Whole trees -/

mutual
/-- All nodes below a node, every node before the nodes below it. -/
def walk : Node → List Node
  | .block _ _ ns => walkAll ns
  | .declaration _ _ => []
  | .leaf _ => []
def walkAll : List Node → List Node
  | [] => []
  | n :: ns => n :: (walk n ++ walkAll ns)
end

theorem walkAll_eq_flatMap (ns : List Node) : walkAll ns = ns.flatMap fun n => n :: n.walk := by
  induction ns with
  | nil => rfl
  | cons n ns ih => simp [walkAll, ih]

theorem mem_walk_iff {n m : Node} : m ∈ n.walk ↔ ∃ k ∈ n.nodes, m ∈ k :: k.walk := by
  cases n with
  | block o h ns => rw [walk, walkAll_eq_flatMap, List.mem_flatMap, nodes]
  | declaration o d => simp [walk, nodes]
  | leaf o => simp [walk, nodes]

mutual
/-- A copy of a tree: the same content and places, and no handles. -/
def copy : Node → Node
  | .block o h ns => .block o.ofCopy h (copyAll ns)
  | .declaration o c => .declaration o.ofCopy c
  | .leaf o => .leaf o.ofCopy
def copyAll : List Node → List Node
  | [] => []
  | n :: ns => copy n :: copyAll ns
end

theorem copyAll_eq_map (ns : List Node) : copyAll ns = ns.map copy := by
  induction ns with
  | nil => rfl
  | cons n ns ih => simp [copyAll, ih]

mutual
/-- The number of nodes of a tree. -/
def size : Node → Nat
  | .block _ _ ns => 1 + sizeAll ns
  | .declaration _ _ => 1
  | .leaf _ => 1
def sizeAll : List Node → Nat
  | [] => 0
  | n :: ns => size n + sizeAll ns
end

mutual
/-- The number of nodes on the longest path down a tree. -/
def height : Node → Nat
  | .block _ _ ns => 1 + heightAll ns
  | .declaration _ _ => 1
  | .leaf _ => 1
def heightAll : List Node → Nat
  | [] => 0
  | n :: ns => max (height n) (heightAll ns)
end

end Node

end StyleNesting
