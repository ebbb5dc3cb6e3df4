/-
  StyleNesting/Pass/Factory.lean
  ==============================
  **Where new nodes come from.**  A pass builds a new rule or declaration from a
  node that is already in the tree, so that the new node can keep the place in
  the source it stands for.  Construction can be refused; a refusal stops the
  pass where it is.
-/
import StyleNesting.Sheet.Node

namespace StyleNesting

/-- The kinds of node that passes build. -/
inductive NodeKind where
  | rule
  | declaration
deriving DecidableEq, Repr

def NodeKind.name : NodeKind → String
  | .rule => "rule"
  | .declaration => "declaration"

/-- A construction that did not take place. -/
structure Refusal where
  kind : NodeKind
  /-- The reason given; empty if there is none. -/
  reason : String := ""
deriving DecidableEq, Repr

/-- What a refusal says: its reason, or that there was nothing to build from. -/
def Refusal.message (r : Refusal) : String :=
  if r.reason.isEmpty then
    "cannot construct a new " ++ r.kind.name ++ ": no reference " ++ r.kind.name ++ " in the tree"
  else r.reason

/-- A way to build nodes. -/
structure Factory where
  /-- Whether a new node keeps the place of the node it is modelled on. -/
  keepsSource : Bool
  /-- The reason for which a call is refused, by the kind of node and the number
      of earlier calls for that kind. -/
  refusal? : NodeKind → Nat → Option String

namespace Factory

/-- Model every node on one of its kind, and keep its place. -/
def clone : Factory := ⟨true, fun _ _ => none⟩

/-- Build every node from nothing but its content. -/
def literal : Factory := ⟨false, fun _ _ => none⟩

/-- The rule to model a new rule on: the reference itself, or else the first
    rule of the tree it stands in. -/
def ruleTemplate? (tree reference : Node) : Option Node :=
  if reference.isRule then some reference
  else if tree.isRule then some tree
  else tree.walk.find? Node.isRule

/-- The declaration to model a new declaration on: the reference itself, or else
    the first declaration below the top of the tree it stands in. -/
def declarationTemplate? (tree reference : Node) : Option Node :=
  if reference.content?.isSome then some reference
  else tree.walk.find? (·.content?.isSome)

/-- The origin of a new node modelled on `template?`, if there is one to be had. -/
def originFrom? (f : Factory) (template? : Option Node) : Option Origin :=
  if f.keepsSource then template?.map (·.origin.ofCopy) else some {}

/-- Build an empty rule for a reference node that stands in `tree`, after
    `calls` earlier calls for rules. -/
def rule (f : Factory) (calls : Nat) (tree reference : Node) (selector : Text) :
    Except Refusal Node :=
  match f.refusal? .rule calls with
  | some reason => .error ⟨.rule, reason⟩
  | none =>
    match f.originFrom? (ruleTemplate? tree reference) with
    | some o => .ok (.block o (.rule selector) [])
    | none => .error ⟨.rule, ""⟩

/-- Build a declaration for a reference node that stands in `tree`, after
    `calls` earlier calls for declarations. -/
def declaration (f : Factory) (calls : Nat) (tree reference : Node) (content : Declaration) :
    Except Refusal Node :=
  match f.refusal? .declaration calls with
  | some reason => .error ⟨.declaration, reason⟩
  | none =>
    match f.originFrom? (declarationTemplate? tree reference) with
    | some o => .ok (.declaration o content)
    | none => .error ⟨.declaration, ""⟩

end Factory

end StyleNesting
