/-
  StyleNesting/Sheet/Signature.lean
  =================================
  **What a block says, up to the order of its declarations.**  The signature of
  a block lists its declarations in sorted order, and the fingerprints of its
  other children in the order they stand.  Blocks with equal signatures can
  share one rule.
-/
import StyleNesting.Sheet.Node

namespace StyleNesting

/-! ### The order of declarations -/

/-- `a` comes before `b` or is equal to it: by property, then by value, and what
    is not important comes first. -/
def Declaration.le (a b : Declaration) : Bool :=
  if a.property ≠ b.property then Text.le a.property b.property
  else if a.value ≠ b.value then Text.le a.value b.value
  else !a.important || b.important

/-- The kinds of children that a fingerprint tells apart by kind alone. -/
inductive PlainKind where
  | node
  | root
deriving DecidableEq, Repr

/-- What a child that is no declaration adds to the signature of its block. -/
inductive Fingerprint where
  | rule (selector : Text) (declarations : List Declaration) (nested : List Fingerprint)
  | atRule (name params : Text) (hasBlock : Bool) (declarations : List Declaration)
      (nested : List Fingerprint)
  | plain (kind : PlainKind)
deriving Repr

/-- The content of a block up to the order of its declarations. -/
structure Signature where
  declarations : List Declaration
  nested : List Fingerprint
deriving Repr

namespace Fingerprint

mutual
def decEq : (a b : Fingerprint) → Decidable (a = b)
  | .rule s ds fs, .rule s' ds' fs' =>
    if h : s = s' ∧ ds = ds' then
      match decEqAll fs fs' with
      | isTrue hf => isTrue (by rw [h.1, h.2, hf])
      | isFalse hf => isFalse (by intro e; cases e; exact hf rfl)
    else isFalse (by intro e; cases e; exact h ⟨rfl, rfl⟩)
  | .atRule n p b ds fs, .atRule n' p' b' ds' fs' =>
    if h : n = n' ∧ p = p' ∧ b = b' ∧ ds = ds' then
      match decEqAll fs fs' with
      | isTrue hf => isTrue (by rw [h.1, h.2.1, h.2.2.1, h.2.2.2, hf])
      | isFalse hf => isFalse (by intro e; cases e; exact hf rfl)
    else isFalse (by intro e; cases e; exact h ⟨rfl, rfl, rfl, rfl⟩)
  | .plain k, .plain k' =>
    if h : k = k' then isTrue (by rw [h]) else isFalse (by intro e; cases e; exact h rfl)
  | .rule _ _ _, .atRule _ _ _ _ _ => isFalse (by intro e; cases e)
  | .rule _ _ _, .plain _ => isFalse (by intro e; cases e)
  | .atRule _ _ _ _ _, .rule _ _ _ => isFalse (by intro e; cases e)
  | .atRule _ _ _ _ _, .plain _ => isFalse (by intro e; cases e)
  | .plain _, .rule _ _ _ => isFalse (by intro e; cases e)
  | .plain _, .atRule _ _ _ _ _ => isFalse (by intro e; cases e)
def decEqAll : (as bs : List Fingerprint) → Decidable (as = bs)
  | [], [] => isTrue rfl
  | [], _ :: _ => isFalse (by intro e; cases e)
  | _ :: _, [] => isFalse (by intro e; cases e)
  | a :: as, b :: bs =>
    match decEq a b with
    | isFalse h => isFalse (by intro e; cases e; exact h rfl)
    | isTrue h =>
      match decEqAll as bs with
      | isTrue hs => isTrue (by rw [h, hs])
      | isFalse hs => isFalse (by intro e; cases e; exact hs rfl)
end

instance : DecidableEq Fingerprint := decEq

end Fingerprint

instance : DecidableEq Signature := fun a b =>
  if h : a.declarations = b.declarations ∧ a.nested = b.nested then
    isTrue (by cases a; cases b; cases h.1; cases h.2; rfl)
  else isFalse (by intro e; cases e; exact h ⟨rfl, rfl⟩)

namespace Node

/-- The declarations among some nodes, in sorted order. -/
def sortedDeclarations (ns : List Node) : List Declaration :=
  Text.sortBy Declaration.le (ns.filterMap content?)

mutual
/-- What a node adds to the signature of the block it stands in; a declaration adds nothing. -/
def fingerprint? : Node → Option Fingerprint
  | .block _ (.rule s) ns => some (.rule s (sortedDeclarations ns) (fingerprints ns))
  | .block _ (.atRule name params b) ns =>
    some (.atRule name params b (sortedDeclarations ns) (fingerprints ns))
  | .block _ .sheet _ => some (.plain .root)
  | .block _ .group _ => some (.plain .node)
  | .leaf _ => some (.plain .node)
  | .declaration _ _ => none
def fingerprints : List Node → List Fingerprint
  | [] => []
  | n :: ns =>
    match fingerprint? n with
    | some f => f :: fingerprints ns
    | none => fingerprints ns
end

theorem fingerprints_eq_filterMap (ns : List Node) :
    fingerprints ns = ns.filterMap fingerprint? := by
  induction ns with
  | nil => rfl
  | cons n ns ih =>
    rw [fingerprints, List.filterMap_cons]
    cases fingerprint? n <;> simp [ih]

/-- The signature of a block. -/
def signature (n : Node) : Signature :=
  ⟨sortedDeclarations n.nodes, fingerprints n.nodes⟩

end Node

end StyleNesting
