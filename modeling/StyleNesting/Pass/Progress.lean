/-
  StyleNesting/Pass/Progress.lean
  ===============================
  **What a run carries along**: how often the factory was called, the events so
  far, the nodes that were taken out of the tree, and the failure that stopped
  the run, if one did.  After a failure nothing changes any more: every step
  first asks whether the run has stopped, so the tree stays as the failing step
  found it.
-/
import StyleNesting.Pass.Event
import StyleNesting.Pass.Factory

namespace StyleNesting

/-- Why a run stopped. -/
inductive Failure where
  /-- The factory refused to build a node. -/
  | refused (refusal : Refusal)
  /-- A node was to be replaced or taken out of a block it does not stand in. -/
  | notAChild
  /-- A declaration to move was not found in its rule. -/
  | noDeclaration
deriving DecidableEq, Repr

/-- What a run carries along. -/
structure Progress where
  ruleCalls : Nat := 0
  declarationCalls : Nat := 0
  /-- The events, oldest first. -/
  events : List Event := []
  /-- The nodes taken out of the tree, as they were then. -/
  removed : List Node := []
  failure : Option Failure := none

namespace Progress

/-- Whether the run has stopped. -/
def stopped (p : Progress) : Bool := p.failure.isSome

def log (p : Progress) (e : Event) : Progress := { p with events := p.events ++ [e] }

def remove (p : Progress) (ns : List Node) : Progress := { p with removed := p.removed ++ ns }

def fail (p : Progress) (f : Failure) : Progress := { p with failure := some f }

/-- Ask the factory for an empty rule modelled on `reference`.  The reference is
    a rule, which is its own template whatever tree it stands in. -/
def newRule (p : Progress) (f : Factory) (reference : Node) (selector : Text) :
    Option Node × Progress :=
  if p.stopped then (none, p)
  else
    let counted := { p with ruleCalls := p.ruleCalls + 1 }
    match f.rule p.ruleCalls reference reference selector with
    | .ok n => (some n, counted)
    | .error r => (none, counted.fail (.refused r))

/-- Ask the factory for a declaration modelled on the declaration `reference`. -/
def newDeclaration (p : Progress) (f : Factory) (reference : Node) (content : Declaration) :
    Option Node × Progress :=
  if p.stopped then (none, p)
  else
    let counted := { p with declarationCalls := p.declarationCalls + 1 }
    match f.declaration p.declarationCalls reference reference content with
    | .ok n => (some n, counted)
    | .error r => (none, counted.fail (.refused r))

end Progress

end StyleNesting
