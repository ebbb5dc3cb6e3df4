/-
  StyleNesting/Pass/TopDown.lean
  ==============================
  **Working a tree from the top.**  A pass first reworks the children of a block
  as a group of siblings, and then enters the rules and at-rules among the
  children it has just made.  Blocks of other kinds are not entered.
-/
import StyleNesting.Pass.Progress

namespace StyleNesting

/-- A step on one node of a run. -/
abbrev Step := Progress → Node → Node × Progress

/-- Take the step on every node of a list, in order. -/
def visitAll (step : Step) : Progress → List Node → List Node × Progress
  | p, [] => ([], p)
  | p, n :: ns =>
    let (n', p') := step p n
    let (ns', p'') := visitAll step p' ns
    (n' :: ns', p'')

/-- Take the step on a rule or an at-rule, as long as the run has not stopped. -/
def enter (step : Step) : Step := fun p n =>
  if n.isStyleBlock && !p.stopped then step p n else (n, p)

/-- Rework the children of a block by `level`, which is told the header of the
    block, and then enter the rules and at-rules among them.  `fuel` bounds the
    depth to which blocks are entered. -/
def topDown (level : Header → Progress → List Node → List Node × Progress) : Nat → Step
  | 0, p, n => (n, p)
  | _ + 1, p, .declaration o c => (.declaration o c, p)
  | _ + 1, p, .leaf o => (.leaf o, p)
  | fuel + 1, p, .block o h ns =>
    let (reworked, p') := level h p ns
    let (entered, p'') := visitAll (enter (topDown level fuel)) p' reworked
    (.block o h entered, p'')

end StyleNesting
