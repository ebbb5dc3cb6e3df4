/-
  StyleNesting/Pass/Factoring.lean
  ================================
  **Factoring shared declarations.**  Given the siblings

      .a { color: red; margin: 0; }
      .b { color: red; }

  every declaration that two or more of them hold moves to a new rule in front
  of the first of them:

      .a, .b { color: red; }
      .a { margin: 0; }

  There is one new rule for every set of siblings that share something.  Rules
  that are left without content are removed.
-/
import StyleNesting.Pass.Cleanup
import StyleNesting.Pass.Collapse
import StyleNesting.Pass.Sharing

namespace StyleNesting

namespace Factoring

/-- Build the declarations of a new rule, each modelled on the first one in
    `first` that says the same. -/
def drafts (f : Factory) (first : Node) : Progress → List Declaration → List Node × Progress
  | p, [] => ([], p)
  | p, d :: ds =>
    if p.stopped then ([], p)
    else
      match first.nodes.find? (·.content? == some d) with
      | none => ([], p.fail .noDeclaration)
      | some reference =>
        match p.newDeclaration f reference d with
        | (none, p') => ([], p')
        | (some n, p') =>
          let (rest, p'') := drafts f first p' ds
          (n :: rest, p'')

/-- Whether a node is one of the given declarations. -/
def isOneOf (ds : List Declaration) (n : Node) : Bool :=
  match n.content? with
  | some d => ds.contains d
  | none => false

/-- Take the given declarations out of the child with ticket `t`. -/
def strip (ds : List Declaration) (w : Work) (t : Nat) : Work :=
  if w.stopped then w
  else
    match w.get? t with
    | none => w.fail .notAChild
    | some n =>
      let stripped := w.modify t fun n => n.setNodes (n.nodes.filter (!isOneOf ds ·))
      { stripped with progress := stripped.progress.remove (n.nodes.filter (isOneOf ds)) }

/-- Move the declarations of a group to a new rule in front of its first member.
    `tickets` are the tickets of the sibling rules. -/
def factorGroup (f : Factory) (tickets : List Nat) (w : Work) (g : SharingGroup) : Work :=
  let members := g.members.filterMap (tickets[·]?)
  match members with
  | [] => w
  | t :: _ =>
    match w.get? t with
    | none => w.fail .notAChild
    | some first =>
      let selector := Collapse.jointSelector (members.filterMap w.get?)
      match w.progress.newRule f first selector with
      | (none, p) => { w with progress := p }
      | (some n, p) =>
        let (ds, p') := drafts f first p g.declarations
        let moved := members.foldl (strip g.declarations)
          ({ w with progress := p' }.insertBefore t (n.append ds))
        if moved.stopped then moved
        else moved.log (.factored g.declarations.length selector)

/-- Factor what the rules among some siblings share. -/
def factorSiblings (f : Factory) (p : Progress) (ns : List Node) : List Node × Progress :=
  let w := Work.start p ns
  let groups := sharingGroups (ns.filter Node.isRule)
  (groups.foldl (fun w' g => if w'.stopped then w' else factorGroup f w.ruleTickets w' g) w).finish

/-- Factor the children of a block, and remove the rules that are then empty. -/
def level (f : Factory) (p : Progress) (ns : List Node) : List Node × Progress :=
  if (ns.filter Node.isRule).length < 2 then (ns, p)
  else
    let (factored, p') := factorSiblings f p ns
    if p'.stopped then (factored, p') else Cleanup.among p' factored

end Factoring

/-- Factor shared declarations, in a block and everything below it. -/
def factorDeclarations (f : Factory) (p : Progress) (n : Node) : Node × Progress :=
  if p.stopped then (n, p) else topDown (fun _ => Factoring.level f) n.height p n

end StyleNesting
