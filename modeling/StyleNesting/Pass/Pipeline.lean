/-
  StyleNesting/Pass/Pipeline.lean
  ===============================
  **The passes in order.**  A run takes the enabled passes in a fixed order,
  then any transforms of the caller, and removes the empty rules at the end.
-/
import StyleNesting.Pass.Descendants
import StyleNesting.Pass.Factoring
import StyleNesting.Pass.Pseudos

namespace StyleNesting

/-- The passes. -/
inductive Pass where
  | descendants
  | collapse
  | factor
  | pseudos
  | cleanup
deriving DecidableEq, Repr

/-- Run one pass on a block. -/
def Pass.run (pass : Pass) (f : Factory) : Step :=
  match pass with
  | .descendants => nestDescendants f
  | .collapse => collapseSiblings f
  | .factor => factorDeclarations f
  | .pseudos => nestPseudos f
  | .cleanup => removeEmptyRules

/-- The name under which a pass is logged as a transform. -/
def Pass.transformName : Pass → String
  | .descendants => "DescendantNestingTransform"
  | .collapse => "SiblingCollapsingTransform"
  | .factor => "CommonPropertyFactoringTransform"
  | .pseudos => "PseudoNestingTransform"
  | .cleanup => "CleanupTransform"

/-- Which passes a run takes; all of them unless said otherwise. -/
structure Options where
  nestDescendants : Bool := true
  collapseSiblings : Bool := true
  factorDeclarations : Bool := true
  nestPseudos : Bool := true
deriving DecidableEq, Repr

/-- The enabled passes in the order in which they run. -/
def Options.passes (o : Options) : List Pass :=
  (if o.nestDescendants then [.descendants] else []) ++
  (if o.collapseSiblings then [.collapse] else []) ++
  (if o.factorDeclarations then [.factor] else []) ++
  (if o.nestPseudos then [.pseudos] else [])

/-- A step on a whole tree, with the name under which it is logged. -/
structure Transform where
  name : String
  apply : Step

/-- A pass as a transform. -/
def Pass.transform (pass : Pass) (f : Factory) : Transform := ⟨pass.transformName, pass.run f⟩

/-- Announce a transform and run it. -/
def Transform.run (t : Transform) : Step := fun p n =>
  if p.stopped then (n, p) else t.apply (p.log (.running t.name)) n

/-- Run transforms one after another. -/
def runAll : List Transform → Step
  | [], p, n => (n, p)
  | t :: ts, p, n =>
    let (n', p') := t.run p n
    runAll ts p' n'

/-- Run the enabled passes and the given transforms on a stylesheet, and remove
    the empty rules. -/
def applyTransforms (o : Options) (f : Factory) (custom : List Transform) (n : Node) :
    Node × Progress :=
  let (n', p) := runAll (o.passes.map (·.transform f) ++ custom) {} n
  removeEmptyRules p n'

/-- Compact a stylesheet by the enabled passes. -/
def nest (o : Options) (f : Factory) (n : Node) : Node × Progress := applyTransforms o f [] n

end StyleNesting
