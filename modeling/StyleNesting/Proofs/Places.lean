/-
  StyleNesting/Proofs/Places.lean
  ===============================
  **Trees without their places in the source.**  Two trees are the same but for
  places if `unplaced` makes them equal: the same kinds of nodes with the same
  headers, contents and handles in the same order.

  Everything that the passes look at, and everything that is printed, is the
  same in a tree and in its unplaced form (`print_unplaced`).
-/
import StyleNesting.Pass.Pipeline
import StyleNesting.Sheet.Printer

namespace StyleNesting

/-- The origin without the place in the source. -/
def Origin.unplaced (o : Origin) : Origin := { o with source := none }

namespace Node

mutual
/-- The tree without the places of its nodes. -/
def unplaced : Node → Node
  | .block o h ns => .block o.unplaced h (unplacedAll ns)
  | .declaration o d => .declaration o.unplaced d
  | .leaf o => .leaf o.unplaced
def unplacedAll : List Node → List Node
  | [] => []
  | n :: ns => unplaced n :: unplacedAll ns
end

theorem unplacedAll_eq_map (ns : List Node) : unplacedAll ns = ns.map unplaced := by
  induction ns with
  | nil => rfl
  | cons n ns ih => rw [unplacedAll, ih, List.map_cons]

theorem unplaced_block (o : Origin) (h : Header) (ns : List Node) :
    (Node.block o h ns).unplaced = .block o.unplaced h (ns.map unplaced) := by
  rw [unplaced, unplacedAll_eq_map]

/-! ### What a node shows -/

@[simp]
theorem nodes_unplaced (n : Node) : n.unplaced.nodes = n.nodes.map unplaced := by
  cases n with
  | block o h ns => rw [unplaced_block]; rfl
  | declaration o d => rfl
  | leaf o => rfl

@[simp]
theorem isRule_unplaced (n : Node) : n.unplaced.isRule = n.isRule := by
  cases n with
  | block o h ns => cases h <;> rfl
  | declaration o d => rfl
  | leaf o => rfl

@[simp]
theorem isStyleBlock_unplaced (n : Node) : n.unplaced.isStyleBlock = n.isStyleBlock := by
  cases n with
  | block o h ns => cases h <;> rfl
  | declaration o d => rfl
  | leaf o => rfl

@[simp]
theorem selector?_unplaced (n : Node) : n.unplaced.selector? = n.selector? := by
  cases n with
  | block o h ns => cases h <;> rfl
  | declaration o d => rfl
  | leaf o => rfl

@[simp]
theorem parts_unplaced (n : Node) : n.unplaced.parts = n.parts := by
  cases n with
  | block o h ns => cases h <;> rfl
  | declaration o d => rfl
  | leaf o => rfl

@[simp]
theorem content?_unplaced (n : Node) : n.unplaced.content? = n.content? := by
  cases n <;> rfl

@[simp]
theorem hasSelector_unplaced (s : Text) (n : Node) :
    n.unplaced.hasSelector s = n.hasSelector s := by
  rw [hasSelector, selector?_unplaced, hasSelector]

@[simp]
theorem splits_unplaced (n : Node) : n.unplaced.splits = n.splits := by
  rw [splits, parts_unplaced, splits]

@[simp]
theorem isEmptyRule_unplaced (n : Node) : n.unplaced.isEmptyRule = n.isEmptyRule := by
  cases n with
  | block o h ns => cases h <;> cases ns <;> rfl
  | declaration o d => rfl
  | leaf o => rfl

theorem filterMap_content?_unplaced (ns : List Node) :
    (ns.map unplaced).filterMap content? = ns.filterMap content? := by
  have hcontent : content? ∘ unplaced = content? := funext content?_unplaced
  rw [List.filterMap_map, hcontent]

@[simp]
theorem declarations_unplaced (n : Node) : n.unplaced.declarations = n.declarations := by
  rw [declarations, nodes_unplaced, filterMap_content?_unplaced, declarations]

theorem sortedDeclarations_unplaced (ns : List Node) :
    sortedDeclarations (ns.map unplaced) = sortedDeclarations ns := by
  rw [sortedDeclarations, filterMap_content?_unplaced, sortedDeclarations]

mutual
theorem fingerprint?_unplaced : ∀ n : Node, n.unplaced.fingerprint? = n.fingerprint?
  | .block o (.rule s) ns => by
    rw [unplaced_block, fingerprint?, sortedDeclarations_unplaced, fingerprints_unplaced ns,
      fingerprint?]
  | .block o (.atRule name params b) ns => by
    rw [unplaced_block, fingerprint?, sortedDeclarations_unplaced, fingerprints_unplaced ns,
      fingerprint?]
  | .block o .sheet ns => rfl
  | .block o .group ns => rfl
  | .declaration o d => rfl
  | .leaf o => rfl
theorem fingerprints_unplaced :
    ∀ ns : List Node, fingerprints (ns.map unplaced) = fingerprints ns
  | [] => rfl
  | n :: ns => by
    rw [List.map_cons, fingerprints, fingerprint?_unplaced n, fingerprints_unplaced ns,
      fingerprints]
end

@[simp]
theorem signature_unplaced (n : Node) : n.unplaced.signature = n.signature := by
  rw [signature, nodes_unplaced, sortedDeclarations_unplaced, fingerprints_unplaced, signature]

mutual
theorem height_unplaced : ∀ n : Node, n.unplaced.height = n.height
  | .block o h ns => by rw [unplaced_block, height, heightAll_unplaced ns, height]
  | .declaration o d => rfl
  | .leaf o => rfl
theorem heightAll_unplaced : ∀ ns : List Node, heightAll (ns.map unplaced) = heightAll ns
  | [] => rfl
  | n :: ns => by
    rw [List.map_cons, heightAll, height_unplaced n, heightAll_unplaced ns, heightAll]
end

mutual
theorem size_unplaced : ∀ n : Node, n.unplaced.size = n.size
  | .block o h ns => by rw [unplaced_block, size, sizeAll_unplaced ns, size]
  | .declaration o d => rfl
  | .leaf o => rfl
theorem sizeAll_unplaced : ∀ ns : List Node, sizeAll (ns.map unplaced) = sizeAll ns
  | [] => rfl
  | n :: ns => by
    rw [List.map_cons, sizeAll, size_unplaced n, sizeAll_unplaced ns, sizeAll]
end

/-! ### Changing a node -/

mutual
theorem unplaced_copy : ∀ n : Node, n.copy.unplaced = n.unplaced.copy
  | .block o h ns => by
    rw [copy, unplaced, unplaced, copy, unplacedAll_copyAll ns]
    rfl
  | .declaration o d => rfl
  | .leaf o => rfl
theorem unplacedAll_copyAll :
    ∀ ns : List Node, unplacedAll (copyAll ns) = copyAll (unplacedAll ns)
  | [] => rfl
  | n :: ns => by
    rw [copyAll, unplacedAll, unplaced_copy n, unplacedAll_copyAll ns, unplacedAll, copyAll]
end

theorem map_unplaced_copyAll (ns : List Node) :
    (copyAll ns).map unplaced = copyAll (ns.map unplaced) := by
  rw [← unplacedAll_eq_map, unplacedAll_copyAll, unplacedAll_eq_map]

theorem unplaced_append (ms : List Node) (n : Node) :
    (n.append ms).unplaced = n.unplaced.append (ms.map unplaced) := by
  cases n with
  | block o h ns => simp [append, unplaced_block]
  | declaration o d => rfl
  | leaf o => rfl

theorem unplaced_setNodes (ms : List Node) (n : Node) :
    (n.setNodes ms).unplaced = n.unplaced.setNodes (ms.map unplaced) := by
  cases n with
  | block o h ns => simp [setNodes, unplaced_block]
  | declaration o d => rfl
  | leaf o => rfl

theorem unplaced_setSelector (s : Text) (n : Node) :
    (n.setSelector s).unplaced = n.unplaced.setSelector s := by
  cases n with
  | block o h ns => cases h <;> rfl
  | declaration o d => rfl
  | leaf o => rfl

/-! ### Printing -/

mutual
theorem lines_unplaced (indent : Text) : ∀ (depth : Nat) (n : Node),
    n.unplaced.lines indent depth = n.lines indent depth
  | depth, .block o h ns => by
    rw [unplaced_block, lines, lines, linesAll_unplaced indent (depth + 1) ns]
    simp only [List.isEmpty_map]
  | _, .declaration _ _ => rfl
  | _, .leaf _ => rfl
theorem linesAll_unplaced (indent : Text) : ∀ (depth : Nat) (ns : List Node),
    linesAll indent depth (ns.map unplaced) = linesAll indent depth ns
  | _, [] => rfl
  | depth, n :: ns => by
    rw [List.map_cons, linesAll, lines_unplaced indent depth n, linesAll_unplaced indent depth ns,
      linesAll]
end

/-- **Places are not printed.** -/
@[simp]
theorem print_unplaced (indent : Text) (n : Node) : n.unplaced.print indent = n.print indent := by
  match n with
  | .block o .sheet ns => rw [unplaced_block, print, linesAll_unplaced, print]
  | .block o .group ns =>
    exact congrArg unlines (lines_unplaced indent 0 (.block o .group ns))
  | .block o (.rule s) ns =>
    exact congrArg unlines (lines_unplaced indent 0 (.block o (.rule s) ns))
  | .block o (.atRule name params b) ns =>
    exact congrArg unlines (lines_unplaced indent 0 (.block o (.atRule name params b) ns))
  | .declaration o d => rfl
  | .leaf o => rfl

end Node

end StyleNesting
