/-
  StyleNesting/Pass/Collapse.lean
  ===============================
  **Collapsing siblings**: rules that are nested in the same rule and have the
  same content become one rule, with the parts of all their selectors.  The
  children of the stylesheet itself and of at-rules are left alone.
-/
import StyleNesting.Pass.Siblings
import StyleNesting.Pass.TopDown
import StyleNesting.Sheet.Signature

namespace StyleNesting

/-- Sort a list into the classes of elements with equal keys; classes stand in
    the order of their first elements, and elements in the order of the list. -/
def classesBy {α κ : Type} [DecidableEq κ] (key : α → κ) (xs : List α) : List (List α) :=
  let keyed := xs.map fun x => (key x, x)
  ((keyed.map (·.1)).eraseDups).map fun k => (keyed.filter fun kx => kx.1 == k).map (·.2)

namespace Collapse

/-- The selector of the rule that stands for all of some rules. -/
def jointSelector (rules : List Node) : Text := Selector.joined (rules.flatMap Node.parts)

/-- Replace a class of two or more rules by one rule in the place of the first. -/
def merge (f : Factory) (w : Work) (members : List Slot) : Work :=
  match members with
  | ⟨some t, first⟩ :: _ :: _ =>
    let selector := jointSelector (members.map (·.node))
    match w.progress.newRule f first selector with
    | (none, p) => { w with progress := p }
    | (some n, p) =>
      let merged := n.append (Node.copyAll first.nodes)
      let replaced := (members.filterMap (·.ticket)).foldl Work.remove
        ({ w with progress := p }.insertBefore t merged)
      if replaced.stopped then replaced
      else replaced.log (.collapsed members.length selector)
  | _ => w

/-- Collapse the rules among the children of a rule. -/
def level (f : Factory) (p : Progress) (ns : List Node) : List Node × Progress :=
  let w := Work.start p ns
  ((classesBy (·.node.signature) (w.slots.filter (·.node.isRule))).foldl (merge f) w).finish

/-- Collapse the children of rules only. -/
def levelUnder (f : Factory) (h : Header) (p : Progress) (ns : List Node) : List Node × Progress :=
  match h with
  | .rule _ => level f p ns
  | _ => (ns, p)

end Collapse

/-- Collapse siblings in the rules below a block. -/
def collapseSiblings (f : Factory) (p : Progress) : Node → Node × Progress
  | .block o h ns =>
    let (ns', p') := visitAll (enter (topDown (Collapse.levelUnder f) (Node.heightAll ns))) p ns
    (.block o h ns', p')
  | n => (n, p)

end StyleNesting
