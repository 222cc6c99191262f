import FlowLint.Dataflow.Solver
import FlowLint.Eval

/-! # Feasible edges and the nodes they reach

A branch whose condition is a constant follows the edge of that constant only, and a switch whose
subject is a constant the edges of that case, or its default when no case matches.
-/
namespace FlowLint

def branchAdmits (condition : Value) (e : Edge) : Bool :=
  match condition, e.kind with
  | .const c, .ifTrue => c == 1
  | .const c, .ifFalse => c == 0
  | _, _ => true

def switchAdmits (cases : List Int) (subject : Value) (e : Edge) : Bool :=
  match subject, e.kind with
  | .const c, .switchCase => (e.case?.map Word32.wrap) == some c
  | .const c, .switchDefault => cases.all fun v => Word32.wrap v != c
  | _, _ => true

namespace Graph

variable (g : Graph)

/-- The edges out of a node that may be taken under what is known before it, which matters to
branches and switches only. -/
def feasibleEdges (known : Except Error Constants) (n : Node) : Except Error (List Edge) :=
  match (g.method.stmtAt n).action with
  | .branch condition _ => do
    let v ← condition.eval (← known)
    return (g.outEdges n).filter (branchAdmits v)
  | .switch subject cases _ => do
    let v ← (Expr.var subject).eval (← known)
    return (g.outEdges n).filter (switchAdmits (cases.map (·.1)) v)
  | _ => .ok (g.outEdges n)

/-- The nodes that feasible edges reach from the entry under what is known before each node. -/
def feasibleUnder (known : Node → Except Error Constants) : Except Error (List Node) :=
  Walk.closure (fun n => do return (← g.feasibleEdges (known n) n).map (·.target))
    (g.nodes.erase .entry) [.entry] [.entry]

def feasible (constants : Solution Constants) : Except Error (List Node) :=
  g.feasibleUnder fun n => .ok (constants.before n)

end Graph

end FlowLint
