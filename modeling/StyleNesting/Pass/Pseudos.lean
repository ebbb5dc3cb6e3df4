/-
  StyleNesting/Pass/Pseudos.lean
  ==============================
  **Nesting pseudo classes and elements**: a rule `a:hover` goes into its
  sibling `a` as `&:hover`.  A rule goes into a base rule if every part of its
  selector extends the same part of the base's selector.
-/
import StyleNesting.Pass.Siblings
import StyleNesting.Pass.TopDown
import StyleNesting.Selector.Relation

namespace StyleNesting

namespace Pseudos

/-- A rule that may go into another one: its ticket, and the parts of its
    selector, which stay the same as long as it is there. -/
structure Candidate where
  ticket : Nat
  parts : List Text
deriving DecidableEq, Repr

/-- The rules among the children of a block. -/
def candidates (w : Work) : List Candidate :=
  w.slots.filterMap fun s =>
    match s.ticket with
    | some t => if s.node.isRule then some ⟨t, s.node.parts⟩ else none
    | none => none

/-- Whether every part of a rule extends the part `base`. -/
def Candidate.extendsPart (c : Candidate) (base : Text) : Bool :=
  !c.parts.isEmpty && c.parts.all (Selector.isPseudoOf base)

/-- The selector of a rule inside the rule whose part `base` it extends. -/
def Candidate.relativeSelector (c : Candidate) (base : Text) : Text :=
  Text.join Text.commaSpace (c.parts.map fun p => '&' :: p.drop base.length)

/-- Move a rule into the one with ticket `b` if it extends the part `part`. -/
def absorb (f : Factory) (b : Nat) (part : Text) (w : Work) (c : Candidate) : Work :=
  if w.stopped || c.ticket == b || !c.extendsPart part then w
  else
    match w.get? b, w.get? c.ticket with
    | some base, some candidate =>
      let selector := c.relativeSelector part
      match w.progress.newRule f candidate selector with
      | (none, p) => { w with progress := p }
      | (some n, p) =>
        let nested := n.append (Node.copyAll candidate.nodes)
        (({ w with progress := p }.modify b (Node.append [nested])).remove c.ticket).log
          (.attached (candidate.selector?.getD []) (base.selector?.getD []) selector)
    | _, _ => w

/-- Move into a rule, if it is still there, all rules that extend one of its parts. -/
def absorbAll (f : Factory) (cs : List Candidate) (w : Work) (base : Candidate) : Work :=
  if w.contains base.ticket then
    base.parts.foldl (fun w part => cs.foldl (absorb f base.ticket part) w) w
  else w

/-- Nest the pseudo rules among the children of a block. -/
def level (f : Factory) (p : Progress) (ns : List Node) : List Node × Progress :=
  let w := Work.start p ns
  let cs := candidates w
  (cs.foldl (absorbAll f cs) w).finish

end Pseudos

/-- Nest pseudo rules, in a block and everything below it.  A rule that moves
    takes its content along, so the number of nodes bounds the depth of the work. -/
def nestPseudos (f : Factory) (p : Progress) (n : Node) : Node × Progress :=
  if p.stopped then (n, p) else topDown (fun _ => Pseudos.level f) n.size p n

end StyleNesting
