/-
  StyleNesting/Pass/Cleanup.lean
  ==============================
  **Removing empty rules.**  Children are cleaned before their parent is looked
  at, so a rule that held nothing but empty rules goes away in the same run.
  At-rules are entered and never removed.
-/
import StyleNesting.Pass.Progress

namespace StyleNesting

/-- Whether a node is a rule without children. -/
def Node.isEmptyRule : Node → Bool
  | .block _ (.rule _) [] => true
  | _ => false

/-- Take note that a rule went away. -/
def Progress.prune (p : Progress) (n : Node) : Progress :=
  (p.log (.pruned (n.selector?.getD []))).remove [n]

namespace Cleanup

mutual
/-- Remove the empty rules below a rule or an at-rule; other nodes are not entered. -/
def inside (p : Progress) : Node → Node × Progress
  | .block o (.rule s) ns =>
    let (ns', p') := among p ns
    (.block o (.rule s) ns', p')
  | .block o (.atRule name params b) ns =>
    let (ns', p') := among p ns
    (.block o (.atRule name params b) ns', p')
  | .block o .sheet ns => (.block o .sheet ns, p)
  | .block o .group ns => (.block o .group ns, p)
  | .declaration o c => (.declaration o c, p)
  | .leaf o => (.leaf o, p)
/-- Remove the empty rules among the children of a block and below them. -/
def among (p : Progress) : List Node → List Node × Progress
  | [] => ([], p)
  | n :: ns =>
    let (n', p') := inside p n
    if n'.isEmptyRule then among (p'.prune n') ns
    else
      let (ns', p'') := among p' ns
      (n' :: ns', p'')
end

end Cleanup

/-- Remove every empty rule below a block. -/
def removeEmptyRules (p : Progress) : Node → Node × Progress
  | .block o h ns =>
    if p.stopped then (.block o h ns, p)
    else
      let (ns', p') := Cleanup.among p ns
      (.block o h ns', p')
  | n => (n, p)

end StyleNesting
