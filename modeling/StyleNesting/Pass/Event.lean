/-
  StyleNesting/Pass/Event.lean
  ============================
  **What passes report**: one event for every change they make to a tree, with
  the level, the logger and the words under which it is logged.
-/
import StyleNesting.Text.Quoted

namespace StyleNesting

/-- Something a pass did. -/
inductive Event where
  /-- A transform is about to run. -/
  | running (transform : String)
  /-- Content went into the rule `child` inside the rule `parent`. -/
  | nested (child parent : Text)
  /-- Rules with the same content became one rule. -/
  | collapsed (count : Nat) (selector : Text)
  /-- Declarations that several rules share went into a rule of their own. -/
  | factored (count : Nat) (selector : Text)
  /-- A rule went into the rule it extends. -/
  | attached (candidate base selector : Text)
  /-- A rule without content went away. -/
  | pruned (selector : Text)
deriving DecidableEq, Repr

namespace Event

/-- The level at which an event is logged. -/
def level : Event → String
  | .running _ => "INFO"
  | _ => "DEBUG"

/-- The logger that an event goes to. -/
def logger : Event → String
  | .running _ => "cssnest.transforms"
  | .nested _ _ => "cssnest.transforms.descendants"
  | .collapsed _ _ => "cssnest.transforms.collapse"
  | .factored _ _ => "cssnest.transforms.factoring"
  | .attached _ _ _ => "cssnest.transforms.pseudos"
  | .pruned _ => "cssnest.transforms.cleanup"

/-- What is logged. -/
def message : Event → String
  | .running transform => "Running " ++ transform
  | .nested child parent =>
    "Nested " ++ Text.quotedString child ++ " inside " ++ Text.quotedString parent
  | .collapsed count selector =>
    "Collapsed " ++ toString count ++ " rules into " ++ Text.quotedString selector
  | .factored count selector =>
    "Factored " ++ toString count ++ " declaration(s) into " ++ Text.quotedString selector
  | .attached candidate base selector =>
    "Nested " ++ Text.quotedString candidate ++ " inside " ++ Text.quotedString base ++
      " as " ++ Text.quotedString selector
  | .pruned selector => "Removing empty rule " ++ Text.quotedString selector

/-- An event as a line of a log. -/
def line (e : Event) : String := e.level ++ " " ++ e.logger ++ ": " ++ e.message ++ "\n"

end Event

end StyleNesting
