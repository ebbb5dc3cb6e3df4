/-
  StyleNesting/Sheet/Printer.lean
  ===============================
  **Stylesheets as text**: one statement a line, the content of a block indented
  one step further than its header.

      .nav {
        color: red;
        a {}
      }
-/
import StyleNesting.Sheet.Node

namespace StyleNesting

/-- A header as it is written. -/
def Header.text : Header → Text
  | .sheet => []
  | .group => []
  | .rule s => s
  | .atRule name params _ => Text.trimEnd ('@' :: (name ++ ' ' :: params))

/-- A declaration as it is written, with its semicolon. -/
def Declaration.text (d : Declaration) : Text :=
  d.property ++ [':', ' '] ++ d.value ++
    (if d.important then [' ', '!', 'i', 'm', 'p', 'o', 'r', 't', 'a', 'n', 't'] else []) ++ [';']

/-- Whether the header is that of an at-rule that is a statement. -/
def Header.isStatement : Header → Bool
  | .atRule _ _ hasBlock => !hasBlock
  | _ => false

namespace Node

mutual
/-- The lines of a node that stands `depth` steps deep. -/
def lines (indent : Text) (depth : Nat) : Node → List Text
  | .declaration _ c => [Text.times indent depth ++ c.text]
  | .leaf _ => []
  | .block _ h ns =>
    let pad := Text.times indent depth
    if h.isStatement then [pad ++ h.text ++ [';']]
    else if ns.isEmpty then [pad ++ h.text ++ [' ', '{', '}']]
    else (pad ++ h.text ++ [' ', '{']) :: (linesAll indent (depth + 1) ns ++ [pad ++ ['}']])
def linesAll (indent : Text) (depth : Nat) : List Node → List Text
  | [] => []
  | n :: ns => lines indent depth n ++ linesAll indent depth ns
end

theorem linesAll_eq_flatMap (indent : Text) (depth : Nat) (ns : List Node) :
    linesAll indent depth ns = ns.flatMap (lines indent depth) := by
  induction ns with
  | nil => rfl
  | cons n ns ih => simp [linesAll, ih]

/-- Every line with its line feed. -/
def unlines : List Text → Text
  | [] => []
  | l :: ls => l ++ '\n' :: unlines ls

/-- The text of a tree.  A whole stylesheet is the text of its children. -/
def print (indent : Text) : Node → Text
  | .block _ .sheet ns => unlines (linesAll indent 0 ns)
  | n => unlines (lines indent 0 n)

end Node

end StyleNesting
