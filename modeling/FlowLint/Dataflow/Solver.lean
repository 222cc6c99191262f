import FlowLint.Dataflow.Analysis
import FlowLint.Dataflow.Worklist
import FlowLint.Graph.Traversal

/-! # The worklist solver

The start node keeps its boundary fact and is never pending. A step takes a pending node, meets
what its sources produce into what it consumes, and transfers; when the node produces something
new its targets become pending. The run stops when nothing is pending or the bound is reached.
-/
namespace FlowLint

structure Solution (φ : Type) where
  method : Method
  direction : Direction
  consumed : NodeMap φ
  produced : NodeMap φ
  initial : φ
  iterations : Nat
  converged : Bool

namespace Solution

variable {φ : Type} (r : Solution φ)

def before (n : Node) : φ :=
  (match r.direction with
    | .forward => r.consumed
    | .backward => r.produced).getD n r.initial

def after (n : Node) : φ :=
  (match r.direction with
    | .forward => r.produced
    | .backward => r.consumed).getD n r.initial

def describe : String :=
  "DataflowResult(" ++ Text.quote r.method.name ++ ", " ++ r.direction.name ++ ", iterations=" ++
    toString r.iterations ++ ", converged=" ++ (if r.converged then "True" else "False") ++ ")"

end Solution

namespace Solver

variable {φ : Type}

/-- The state between two steps. -/
structure State (φ : Type) where
  consumed : NodeMap φ
  produced : NodeMap φ
  worklist : Worklist Node
  iterations : Nat

def startNode : Direction → Node
  | .forward => .entry
  | .backward => .exit

/-- The nodes whose produced facts a node consumes. -/
def sources (d : Direction) (g : Graph) (n : Node) : List Node :=
  match d with
  | .forward => g.predecessors n
  | .backward => g.successors n

/-- The nodes that consume what a node produces. -/
def targets (d : Direction) (g : Graph) (n : Node) : List Node :=
  match d with
  | .forward => g.successors n
  | .backward => g.predecessors n

def initialOrder (s : Strategy) (d : Direction) (g : Graph) : List Node :=
  match s, d with
  | .rpo, .forward => g.reversePostorder .entry
  | .rpo, .backward => g.backwardOrder
  | _, .forward => g.nodes
  | _, .backward => g.nodes.reverse

def ranks (size : Nat) (order : List Node) : NodeMap Nat :=
  order.zipIdx.foldl (fun m p => m.set p.1 p.2) (.replicate size 0)

def start (a : Analysis φ) (s : Strategy) (g : Graph) : State φ :=
  let first := startNode a.direction
  let order := initialOrder s a.direction g
  let table := ranks g.method.size order
  let facts := NodeMap.replicate g.method.size a.initial
  { consumed := facts
    produced := facts.set first (a.boundary g.method)
    worklist := Worklist.pushAll ⟨s, fun n => table.getD n 0, []⟩ (order.filter (· ≠ first))
    iterations := 0 }

/-- What a node consumes after the meet with its sources. -/
def consume (a : Analysis φ) (g : Graph) (st : State φ) (n : Node) : φ :=
  (sources a.direction g n).foldl (fun c p => a.merge (st.produced.getD p a.initial) c)
    (st.consumed.getD n a.initial)

/-- One step at a node, which has been taken from the worklist. -/
def step (a : Analysis φ) (g : Graph) (st : State φ) (n : Node) (rest : Worklist Node) :
    Except Error (State φ) :=
  let consumed := consume a g st n
  match a.transfer (g.method.stmtAt n) consumed with
  | .error e => .error e
  | .ok produced =>
    let isNew := !a.same (st.produced.getD n a.initial) produced
    let pending := (targets a.direction g n).filter (· ≠ startNode a.direction)
    .ok {
      consumed := st.consumed.set n consumed
      produced := st.produced.set n produced
      worklist := if isNew then rest.pushAll pending else rest
      iterations := st.iterations + 1 }

/-- Steps until nothing is pending, at most `bound` times. -/
def run (a : Analysis φ) (g : Graph) : (bound : Nat) → State φ → Except Error (State φ)
  | 0, st => .ok st
  | bound + 1, st =>
    match st.worklist.pop? with
    | none => .ok st
    | some (n, rest) =>
      match step a g st n rest with
      | .error e => .error e
      | .ok st => run a g bound st

end Solver

/-- Solves an analysis on a graph in at most `bound` steps. -/
def solve {φ : Type} (a : Analysis φ) (s : Strategy) (bound : Int) (g : Graph) :
    Except Error (Solution φ) := do
  let st ← Solver.run a g bound.toNat (Solver.start a s g)
  return {
    method := g.method
    direction := a.direction
    consumed := st.consumed
    produced := st.produced
    initial := a.initial
    iterations := st.iterations
    converged := st.worklist.isEmpty }

end FlowLint
