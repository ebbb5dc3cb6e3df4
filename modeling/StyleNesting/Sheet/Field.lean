/-
  StyleNesting/Sheet/Field.lean
  =============================
  **Nodes field by field**: the kinds of node with the fields each of them has,
  and the spelled-out form of a node, which lists all its fields.
-/
import StyleNesting.Sheet.Node
import StyleNesting.Text.Quoted

namespace StyleNesting

/-- The kinds of node. -/
inductive Shape where
  | root
  | group
  | rule
  | atRule
  | declaration
  | leaf
deriving DecidableEq, Repr

/-- The name of a kind in the spelled-out form of its nodes. -/
def Shape.constructorName : Shape → String
  | .root => "Root"
  | .group => "Container"
  | .rule => "Rule"
  | .atRule => "AtRule"
  | .declaration => "Declaration"
  | .leaf => "Node"

/-- The name that the nodes of a kind go by; those that have no role of their
    own are just nodes. -/
def Shape.typeName : Shape → String
  | .root => "root"
  | .group => "node"
  | .rule => "rule"
  | .atRule => "atrule"
  | .declaration => "decl"
  | .leaf => "node"

/-- Whether the nodes of a kind have children. -/
def Shape.holdsNodes : Shape → Bool
  | .declaration => false
  | .leaf => false
  | _ => true

/-- A node of a kind, with nothing in its fields. -/
def Shape.blank : Shape → Node
  | .root => .block {} .sheet []
  | .group => .block {} .group []
  | .rule => .block {} (.rule []) []
  | .atRule => .block {} (.atRule [] [] true) []
  | .declaration => .declaration {} ⟨[], [], false⟩
  | .leaf => .leaf {}

def Node.shape : Node → Shape
  | .block _ .sheet _ => .root
  | .block _ .group _ => .group
  | .block _ (.rule _) _ => .rule
  | .block _ (.atRule _ _ _) _ => .atRule
  | .declaration _ _ => .declaration
  | .leaf _ => .leaf

/-! ### Fields -/

/-- The fields of nodes, the children apart. -/
inductive Field where
  | source
  | selector
  | name
  | params
  | hasBlock
  | property
  | value
  | important
deriving DecidableEq, Repr

/-- The name of a field in requests and in spelled-out forms. -/
def Field.label : Field → String
  | .source => "source"
  | .selector => "selector"
  | .name => "name"
  | .params => "params"
  | .hasBlock => "has_block"
  | .property => "prop"
  | .value => "value"
  | .important => "important"

/-- The label that stands for the node itself, and so for no field. -/
def Field.taken : String := "self"

/-- The fields that the nodes of a kind have. -/
def Shape.fields : Shape → List Field
  | .root => [.source]
  | .group => [.source]
  | .rule => [.source, .selector]
  | .atRule => [.source, .name, .params, .hasBlock]
  | .declaration => [.source, .property, .value, .important]
  | .leaf => [.source]

/-- The field that a label stands for at a node of a kind. -/
def Shape.field? (s : Shape) (label : String) : Option Field :=
  s.fields.find? fun f => f.label == label

/-- What a field can be given. -/
inductive FieldValue where
  | text (t : Text)
  | flag (b : Bool)
  | source (p : Option Position)
deriving DecidableEq, Repr

/-- Give a field a value; a field that the node does not have changes nothing. -/
def Node.setField (n : Node) (field : Field) (v : FieldValue) : Node :=
  match field, v, n with
  | .source, .source p, n => n.setOrigin { n.origin with source := p }
  | .selector, .text t, .block o (.rule _) ns => .block o (.rule t) ns
  | .name, .text t, .block o (.atRule _ params b) ns => .block o (.atRule t params b) ns
  | .params, .text t, .block o (.atRule name _ b) ns => .block o (.atRule name t b) ns
  | .hasBlock, .flag b, .block o (.atRule name params _) ns => .block o (.atRule name params b) ns
  | .property, .text t, .declaration o c => .declaration o { c with property := t }
  | .value, .text t, .declaration o c => .declaration o { c with value := t }
  | .important, .flag b, .declaration o c => .declaration o { c with important := b }
  | _, _, n => n

/-- New values for fields, by their labels. -/
abbrev FieldValues := List (String × FieldValue)

/-- The first label that stands for no field of a kind. -/
def Shape.unknownLabel? (s : Shape) (values : FieldValues) : Option String :=
  (values.map (·.1)).find? fun l => (s.field? l).isNone

/-- Give the labelled fields values; labels that stand for no field change nothing. -/
def Node.setFields (values : FieldValues) (n : Node) : Node :=
  values.foldl (fun n e => ((n.shape.field? e.1).map fun f => n.setField f e.2).getD n) n

/-! ### The spelled-out form -/

/-- A truth value as it is spelled out. -/
def spelledFlag (b : Bool) : String := if b then "True" else "False"

/-- A place as it is spelled out. -/
def spelledSource (o : Origin) : String :=
  match o.source with
  | none => "source=None"
  | some p =>
    "source=Position(line=" ++ toString p.line ++ ", column=" ++ toString p.column ++ ")"

namespace Node

mutual
/-- A node with all its fields spelled out. -/
def spelled : Node → String
  | .block o h ns =>
    let common := spelledSource o ++ ", nodes=[" ++ String.intercalate ", " (spelledAll ns) ++ "]"
    match h with
    | .sheet => "Root(" ++ common ++ ")"
    | .group => "Container(" ++ common ++ ")"
    | .rule s => "Rule(" ++ common ++ ", selector=" ++ Text.quotedString s ++ ")"
    | .atRule name params b =>
      "AtRule(" ++ common ++ ", name=" ++ Text.quotedString name ++ ", params=" ++
        Text.quotedString params ++ ", has_block=" ++ spelledFlag b ++ ")"
  | .declaration o c =>
    "Declaration(" ++ spelledSource o ++ ", prop=" ++ Text.quotedString c.property ++
      ", value=" ++ Text.quotedString c.value ++ ", important=" ++ spelledFlag c.important ++ ")"
  | .leaf o => "Node(" ++ spelledSource o ++ ")"
def spelledAll : List Node → List String
  | [] => []
  | n :: ns => spelled n :: spelledAll ns
end

end Node

end StyleNesting
