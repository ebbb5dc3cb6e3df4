/-
  StyleNesting/Pass/Siblings.lean
  ===============================
  **The children of a block while a pass works on them.**  Every child that was
  there when the work began has a ticket, by which it is found again whatever
  happened to its selector, its content or its place in between.  Children that
  the pass adds have none.
-/
import StyleNesting.Pass.Progress

namespace StyleNesting

/-- A child and its ticket. -/
structure Slot where
  ticket : Option Nat
  node : Node

namespace Slot

/-- Whether the slot holds the child with ticket `t`. -/
def has (t : Nat) (s : Slot) : Bool := s.ticket == some t

/-- Hand out tickets from `k` on. -/
def numberFrom (k : Nat) : List Node → List Slot
  | [] => []
  | n :: ns => ⟨some k, n⟩ :: numberFrom (k + 1) ns

/-- Hand out tickets. -/
def number (ns : List Node) : List Slot := numberFrom 0 ns

theorem map_node_numberFrom (k : Nat) (ns : List Node) : (numberFrom k ns).map Slot.node = ns := by
  induction ns generalizing k with
  | nil => rfl
  | cons n ns ih => simp [numberFrom, ih]

end Slot

/-- Change the last element that satisfies `p`, if there is one. -/
def updateLast? {α : Type} (p : α → Bool) (f : α → α) : List α → Option (List α)
  | [] => none
  | x :: xs =>
    match updateLast? p f xs with
    | some ys => some (x :: ys)
    | none => if p x then some (f x :: xs) else none

/-- Change the last element that satisfies `p`; without one, nothing changes. -/
def updateLast {α : Type} (p : α → Bool) (f : α → α) (xs : List α) : List α :=
  (updateLast? p f xs).getD xs

/-- The children of one block, and the run they are part of. -/
structure Work where
  slots : List Slot
  progress : Progress

namespace Work

/-- Start to work on the children of a block. -/
def start (p : Progress) (ns : List Node) : Work := ⟨Slot.number ns, p⟩

/-- The children as they are now. -/
def nodes (w : Work) : List Node := w.slots.map (·.node)

@[simp]
theorem nodes_start (p : Progress) (ns : List Node) : (start p ns).nodes = ns :=
  Slot.map_node_numberFrom 0 ns

/-- The children as they are now, and the run so far. -/
def finish (w : Work) : List Node × Progress := (w.nodes, w.progress)

def stopped (w : Work) : Bool := w.progress.stopped

/-- The child with ticket `t`, if it is still there. -/
def get? (w : Work) (t : Nat) : Option Node := (w.slots.find? (Slot.has t)).map (·.node)

/-- Whether the child with ticket `t` is still there. -/
def contains (w : Work) (t : Nat) : Bool := w.slots.any (Slot.has t)

/-- The tickets of the rules, in order. -/
def ruleTickets (w : Work) : List Nat :=
  (w.slots.filter (·.node.isRule)).filterMap (·.ticket)

def log (w : Work) (e : Event) : Work := { w with progress := w.progress.log e }

def fail (w : Work) (f : Failure) : Work := { w with progress := w.progress.fail f }

/-- Put a new child at the end. -/
def push (w : Work) (n : Node) : Work := { w with slots := w.slots ++ [⟨none, n⟩] }

/-- Change the child with ticket `t`. -/
def modify (w : Work) (t : Nat) (f : Node → Node) : Work :=
  { w with slots := w.slots.map fun s => if s.has t then { s with node := f s.node } else s }

/-- Put a new child right in front of the child with ticket `t`. -/
def insertBefore (w : Work) (t : Nat) (n : Node) : Work :=
  if w.stopped then w
  else if w.contains t then
    { w with slots := w.slots.flatMap fun s => if s.has t then [⟨none, n⟩, s] else [s] }
  else w.fail .notAChild

/-- Take out the child with ticket `t`. -/
def remove (w : Work) (t : Nat) : Work :=
  if w.stopped then w
  else
    match w.get? t with
    | some n => ⟨w.slots.filter (!·.has t), w.progress.remove [n]⟩
    | none => w.fail .notAChild

end Work

end StyleNesting
