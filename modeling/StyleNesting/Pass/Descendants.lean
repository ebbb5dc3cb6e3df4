/-
  StyleNesting/Pass/Descendants.lean
  ==================================
  **Nesting by descent**: the content of `.nav a` goes into a rule `a` inside a
  rule `.nav`.  A part is taken apart at its last blank only, so `a b c` goes
  into a rule `c` inside a rule `a b`.  The parts of a rule that cannot be taken
  apart stay with it; a rule with no such part goes away.

  The parent is the last rule of the block with the parent's selector that is
  not itself waiting to be taken apart; if there is none, a new one is put at
  the end of the block.
-/
import StyleNesting.Pass.Siblings
import StyleNesting.Pass.TopDown
import StyleNesting.Selector.Relation

namespace StyleNesting

/-- Whether some part of a rule can be taken apart. -/
def Node.splits (n : Node) : Bool := n.parts.any fun p => (Selector.splitDescendant? p).isSome

/-- Whether a node is a rule with the selector `s`. -/
def Node.hasSelector (s : Text) (n : Node) : Bool := n.selector? == some s

namespace Descendants

/-- Whether a slot holds a rule that can take content for `parent`. -/
def isParent (waiting : List Nat) (parent : Text) (s : Slot) : Bool :=
  s.node.hasSelector parent && !waiting.any s.has

/-- Make sure that there is a rule to take content for `parent`. -/
def ensureParent (f : Factory) (waiting : List Nat) (rule : Node) (parent : Text) (w : Work) :
    Work :=
  if w.stopped || w.slots.any (isParent waiting parent) then w
  else
    match w.progress.newRule f rule parent with
    | (some n, p) => { w with progress := p }.push n
    | (none, p) => { w with progress := p }

/-- Whether the last rule that takes content for `parent` has a rule `child`. -/
def hasChild (waiting : List Nat) (parent child : Text) (w : Work) : Bool :=
  match (w.slots.filter (isParent waiting parent)).getLast? with
  | some s => s.node.nodes.any (Node.hasSelector child)
  | none => false

/-- Change the rule that takes content for `parent`. -/
def updateParent (waiting : List Nat) (parent : Text) (f : Node → Node) (w : Work) : Work :=
  { w with
    slots := updateLast (isParent waiting parent) (fun s => { s with node := f s.node }) w.slots }

/-- Make sure that the rule that takes content for `parent` has a rule `child`. -/
def ensureChild (f : Factory) (waiting : List Nat) (rule : Node) (parent child : Text) (w : Work) :
    Work :=
  if w.stopped || hasChild waiting parent child w then w
  else
    match w.progress.newRule f rule child with
    | (some n, p) => updateParent waiting parent (Node.append [n]) { w with progress := p }
    | (none, p) => { w with progress := p }

/-- Put copies of the content of `rule` into the rule `child` inside the rule `parent`. -/
def fill (waiting : List Nat) (rule : Node) (parent child : Text) (w : Work) : Work :=
  if w.stopped then w
  else
    let content := Node.copyAll rule.nodes
    (updateParent waiting parent (fun n =>
      n.setNodes (updateLast (Node.hasSelector child) (Node.append content) n.nodes)) w).log
        (.nested child parent)

/-- Nest the content of `rule` for one part that was taken apart. -/
def place (f : Factory) (waiting : List Nat) (rule : Node) (w : Work) (split : Text × Text) : Work :=
  fill waiting rule split.1 split.2
    (ensureChild f waiting rule split.1 split.2
      (ensureParent f waiting rule split.1 w))

/-- Take the rule with ticket `t` apart.  `waiting` are the rules still to be
    taken apart, this one included. -/
def splitRule (f : Factory) (waiting : List Nat) (t : Nat) (w : Work) : Work :=
  if w.stopped then w
  else
    match w.get? t with
    | none => w.fail .notAChild
    | some rule =>
      let parts := Selector.distinct rule.parts
      let kept := parts.filter fun p => (Selector.splitDescendant? p).isNone
      let placed := (parts.filterMap Selector.splitDescendant?).foldl (place f waiting rule) w
      if placed.stopped then placed
      else if kept.isEmpty then placed.remove t
      else placed.modify t (Node.setSelector (Text.join Text.commaSpace kept))

/-- Take the waiting rules apart, in order. -/
def splitAll (f : Factory) : List Nat → Work → Work
  | [], w => w
  | t :: later, w => splitAll f later (splitRule f (t :: later) t w)

/-- Take apart the rules among the children of a block. -/
def level (f : Factory) (p : Progress) (ns : List Node) : List Node × Progress :=
  let w := Work.start p ns
  let waiting := (w.slots.filter (·.node.splits)).filterMap (·.ticket)
  (splitAll f waiting w).finish

end Descendants

/-- Nest by descent, in a block and everything below it.  Taking a rule apart
    puts its content one step deeper and uses up one part that can be taken
    apart, so twice the height of the tree bounds the depth of the work. -/
def nestDescendants (f : Factory) (p : Progress) (n : Node) : Node × Progress :=
  if p.stopped then (n, p)
  else topDown (fun _ => Descendants.level f) (2 * n.height) p n

end StyleNesting
