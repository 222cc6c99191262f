import FlowLint.Graph.Edge
import FlowLint.Graph.NodeMap

/-! # Control-flow graphs

A graph keeps its edges in the order of their creation, and for every node the edges out of it
and into it in the same order.
-/
namespace FlowLint

structure Graph where
  method : Method
  edges : List Edge
  outgoing : NodeMap (List Edge)
  incoming : NodeMap (List Edge)

namespace Graph

def empty (m : Method) : Graph :=
  ⟨m, [], .replicate m.size [], .replicate m.size []⟩

variable (g : Graph)

def nodes : List Node := g.method.nodes

def contains (n : Node) : Bool := g.method.hasNode n

def outEdges (n : Node) : List Edge := g.outgoing.getD n []

def inEdges (n : Node) : List Edge := g.incoming.getD n []

def successors (n : Node) : List Node := (g.outEdges n).map (·.target)

def predecessors (n : Node) : List Node := (g.inEdges n).map (·.source)

/-- Adds an edge without a check. -/
def push (e : Edge) : Graph where
  method := g.method
  edges := g.edges ++ [e]
  outgoing := g.outgoing.set e.source (g.outEdges e.source ++ [e])
  incoming := g.incoming.set e.target (g.inEdges e.target ++ [e])

def checkNode (n : Node) : Except Error Unit :=
  if g.contains n then .ok ()
  else .error (.unknownNode (g.method.describeNode n) g.method.name)

def addEdge (e : Edge) : Except Error Graph := do
  g.checkNode e.source
  g.checkNode e.target
  return g.push (← e.check g.method)

def position (n : Node) : Except Error Nat := do
  g.checkNode n
  return g.method.place n

/-- A query about the edges of a node, which has to be a node of the graph. -/
def query {α : Type} (f : Graph → Node → α) (n : Node) : Except Error α :=
  if g.contains n then .ok (f g n) else .error .noEdges

def describe : String :=
  "CFG(method=" ++ Text.quote g.method.name ++ ", nodes=" ++ toString g.nodes.length ++
    ", edges=" ++ toString g.edges.length ++ ")"

end Graph

end FlowLint
