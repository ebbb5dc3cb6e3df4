/-
  StyleNesting/Session/Basic.lean
  ===============================
  **An editing session** holds a number of trees whose nodes are known by
  handles.  A node has at most one parent: putting it somewhere takes it away
  from where it was.  A node without a parent is the top of a tree of its own.
-/
import StyleNesting.Pass.Pipeline
import StyleNesting.Sheet.Field
import StyleNesting.Source.Parser

namespace StyleNesting

/-- What a session knows a node by. -/
abbrev Handle := Nat

namespace Node

/-- Whether a node is the one with handle `h`. -/
def hasHandle (h : Handle) (n : Node) : Bool := n.origin.handle == some h

/-- A node and all nodes below it. -/
def all (n : Node) : List Node := n :: n.walk

mutual
/-- Change the node with handle `h`, wherever it stands. -/
def updateAt (h : Handle) (f : Node → Node) : Node → Node
  | .block o hd ns =>
    let n := Node.block o hd (updateAtAll h f ns)
    if o.handle == some h then f n else n
  | .declaration o c => if o.handle == some h then f (.declaration o c) else .declaration o c
  | .leaf o => if o.handle == some h then f (.leaf o) else .leaf o
def updateAtAll (h : Handle) (f : Node → Node) : List Node → List Node
  | [] => []
  | n :: ns => updateAt h f n :: updateAtAll h f ns
end

mutual
/-- Drop the node with handle `h` from the block it stands in. -/
def dropChild (h : Handle) : Node → Node
  | .block o hd ns => .block o hd (dropAmong h ns)
  | .declaration o c => .declaration o c
  | .leaf o => .leaf o
def dropAmong (h : Handle) : List Node → List Node
  | [] => []
  | n :: ns => if n.hasHandle h then dropAmong h ns else dropChild h n :: dropAmong h ns
end

mutual
/-- Give every node that has no handle one, from `next` on. -/
def adopt (next : Handle) : Node → Node × Handle
  | .block o hd ns =>
    let (o', next') := adoptOrigin next o
    let (ns', next'') := adoptAll next' ns
    (.block o' hd ns', next'')
  | .declaration o c =>
    let (o', next') := adoptOrigin next o
    (.declaration o' c, next')
  | .leaf o =>
    let (o', next') := adoptOrigin next o
    (.leaf o', next')
def adoptAll (next : Handle) : List Node → List Node × Handle
  | [] => ([], next)
  | n :: ns =>
    let (n', next') := adopt next n
    let (ns', next'') := adoptAll next' ns
    (n' :: ns', next'')
/-- Give an origin without a handle the handle `next`. -/
def adoptOrigin (next : Handle) (o : Origin) : Origin × Handle :=
  match o.handle with
  | some _ => (o, next)
  | none => ({ o with handle := some next }, next + 1)
end

/-- The child at a position; negative positions count from the end. -/
def childAt? (n : Node) (i : Int) : Option Node :=
  match i with
  | .ofNat k => n.nodes[k]?
  | .negSucc k => n.nodes.reverse[k]?

/-- The node that is reached by going down to children, by their positions. -/
def atPath? : List Int → Node → Option Node
  | [], n => some n
  | i :: path, n => (n.childAt? i).bind (atPath? path)

end Node

/-- The trees of a session. -/
structure Session where
  trees : List Node := []
  /-- The handle for the next node. -/
  next : Handle := 0

/-- Why an operation of a session failed. -/
inductive SessionError where
  /-- There is no node with the given handle. -/
  | noSuchNode
  | notAChild (child container : Node)
  | unknownField (shape : Shape) (field : String)
  /-- A copy was given a field under the name of the node that is copied. -/
  | takenField (shape : Shape) (withNodes : Bool)
  | parse (error : Source.ParseError)

def SessionError.message : SessionError → String
  | .noSuchNode => "no such node"
  | .notAChild child container =>
    child.spelled ++ " is not a child of this " ++ container.shape.typeName
  | .unknownField shape field =>
    shape.constructorName ++ ".__init__() got " ++
      (if field == Field.taken then "multiple values for argument '"
       else "an unexpected keyword argument '") ++ field ++ "'"
  | .takenField shape withNodes =>
    (if !shape.holdsNodes then "Node.clone"
     else if withNodes then "Container.clone"
     else "Container.clone_empty") ++
      "() got multiple values for argument '" ++ Field.taken ++ "'"
  | .parse e => e.message

namespace Session

/-! ### Looking -/

def nodes (s : Session) : List Node := s.trees.flatMap Node.all

def get? (s : Session) (h : Handle) : Option Node := s.nodes.find? (Node.hasHandle h)

/-- The block that a node stands in. -/
def parent? (s : Session) (h : Handle) : Option Node :=
  s.nodes.find? fun n => n.nodes.any (Node.hasHandle h)

/-- The top of the tree that a node stands in. -/
def root? (s : Session) (h : Handle) : Option Node :=
  s.trees.find? fun t => t.all.any (Node.hasHandle h)

/-- The position of a child in its block. -/
def index (s : Session) (container child : Handle) : Except SessionError Nat :=
  match s.get? container, s.get? child with
  | some c, some n =>
    match c.nodes.findIdx? (Node.hasHandle child) with
    | some i => .ok i
    | none => .error (.notAChild n c)
  | _, _ => .error .noSuchNode

/-! ### Changing -/

/-- Take a tree into the session. -/
def addTree (s : Session) (n : Node) : Session × Handle :=
  let (n', next) := n.adopt s.next
  (⟨s.trees ++ [n'], next⟩, n'.origin.handle.getD s.next)

def update (s : Session) (h : Handle) (f : Node → Node) : Session :=
  { s with trees := s.trees.map (Node.updateAt h f) }

/-- Make a node the top of a tree of its own. -/
def detach (s : Session) (h : Handle) : Session :=
  match s.parent? h, s.get? h with
  | some _, some n => { s with trees := s.trees.map (Node.dropChild h) ++ [n] }
  | _, _ => s

/-- Take the tree with the given top out of the session. -/
def takeTree (s : Session) (h : Handle) : Session :=
  { s with trees := s.trees.filter (!·.hasHandle h) }

/-- Move a node to the end of a block. -/
def append (s : Session) (container child : Handle) : Session :=
  let detached := s.detach child
  match detached.get? child with
  | some n => (detached.takeTree child).update container (Node.append [n])
  | none => s

/-- Move several nodes to the end of a block, one after another. -/
def appendAll (s : Session) (container : Handle) (children : List Handle) : Session :=
  children.foldl (fun s c => s.append container c) s

/-- Move a node right in front of a child of a block.  The node leaves its place
    before the child is looked for, and stays out if that fails. -/
def insertBefore (s : Session) (container existing child : Handle) :
    Session × Except SessionError Unit :=
  let detached := s.detach child
  match detached.index container existing, detached.get? child with
  | .ok _, some n =>
    let place (block : Node) : Node :=
      block.setNodes (block.nodes.flatMap fun m => if m.hasHandle existing then [n, m] else [m])
    ((detached.takeTree child).update container place, .ok ())
  | .error e, _ => (detached, .error e)
  | .ok _, none => (detached, .error .noSuchNode)

/-- Take a child out of a block. -/
def removeChild (s : Session) (container child : Handle) : Session × Except SessionError Unit :=
  match s.index container child with
  | .ok _ => (s.detach child, .ok ())
  | .error e => (s, .error e)

/-- Make a new node of a kind, with the given fields, and move nodes into it.
    `givesNodes` says that children were given, were it none at all. -/
def create (s : Session) (shape : Shape) (fields : FieldValues) (givesNodes : Bool)
    (children : List Handle) : Except SessionError (Session × Handle) :=
  match shape.unknownLabel? fields with
  | some f => .error (.unknownField shape f)
  | none =>
    if givesNodes && !shape.holdsNodes then .error (.unknownField shape "nodes")
    else
      let (s', h) := s.addTree (shape.blank.setFields fields)
      .ok (s'.appendAll h children, h)

/-- Read a stylesheet into the session. -/
def load (s : Session) (source : Text) : Except SessionError (Session × Handle) :=
  match Source.parse source with
  | .ok n => .ok (s.addTree n)
  | .error e => .error (.parse e)

/-- Copy a node, with or without its children, and change fields of the copy. -/
def duplicate (s : Session) (h : Handle) (withNodes : Bool) (fields : FieldValues) :
    Except SessionError (Session × Handle) :=
  match s.get? h with
  | none => .error .noSuchNode
  | some n =>
    if fields.any fun e => e.1 == Field.taken then .error (.takenField n.shape withNodes)
    else
      match n.shape.unknownLabel? fields with
      | some f => .error (.unknownField n.shape f)
      | none =>
        let copy := if withNodes then n.copy else n.copy.setNodes []
        .ok (s.addTree (copy.setFields fields))

/-- Walk below a node, and take out the listed nodes on the way.  The nodes met
    are those that stood below it before. -/
def walkRemoving (s : Session) (h : Handle) (doomed : List Handle) : Session × List Handle :=
  let met := ((s.get? h).map Node.walk |>.getD []).filterMap (·.origin.handle)
  ((met.filter doomed.contains).foldl detach s, met)

/-- Take several trees into the session; trees that have handles keep them. -/
def addTrees (s : Session) (ns : List Node) : Session :=
  ns.foldl (fun s n => (s.addTree n).1) s

/-- Run a pass on a node.  What the pass takes out of the tree stays in the
    session, and what it builds gets handles. -/
def runPass (s : Session) (h : Handle) (pass : Pass) : Session :=
  match s.get? h with
  | none => s
  | some n =>
    let (n', p) := pass.run Factory.clone {} n
    let (n'', next) := n'.adopt s.next
    ({ s with next := next }.update h fun _ => n'').addTrees p.removed

end Session

end StyleNesting
