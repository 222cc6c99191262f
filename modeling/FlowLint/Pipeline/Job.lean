import FlowLint.Dataflow.ConstantPropagation
import FlowLint.DeadCode
import FlowLint.Feasible
import FlowLint.Graph.Dot
import FlowLint.Graph.Flow
import FlowLint.Log
import FlowLint.Pipeline.Store
import FlowLint.Plan.Entry

/-! # Jobs of the pipeline

A job is one analysis of a method. It reads the results of other jobs from the store of the
method and gives a result, which is kept under its own name.
-/
namespace FlowLint

inductive Task where
  | graph
  | constants
  | liveness
  | deadCode
  deriving DecidableEq

namespace Task

def id : Task → String
  | graph => "cfg"
  | constants => "constprop"
  | liveness => "livevar"
  | deadCode => "deadcode"

def title : Task → String
  | graph => "CFGBuilder"
  | constants => "ConstantPropagationAnalysis"
  | liveness => "LiveVariablesAnalysis"
  | deadCode => "DeadCodeDetection"

/-- The tasks whose results a task reads. -/
def needs : Task → List Task
  | graph => []
  | constants | liveness => [graph]
  | deadCode => [graph, constants, liveness]

def all : List Task := [graph, constants, deadCode, liveness]

def ofId? (s : CodeText) : Option Task := all.find? (CodeText.ofString ·.id == s)

/-- Where the graph is kept in the DOT language. -/
def dotKey : String := "cfg.dot"

/-- Where the nodes are kept that dead code was judged by. -/
def reachableKey : String := "deadcode.reachable"

end Task

structure Job where
  task : Task
  options : Options

namespace Job

def ofEntry (e : PlanEntry) : Except Error Job :=
  match Task.ofId? e.id with
  | some task => .ok ⟨task, e.options⟩
  | none => .error (.unknownAnalysis e.id (Task.all.map Task.id))

def describe (j : Job) : String := j.task.title ++ "(" ++ Text.quote j.task.id ++ ")"

/-- What a job gives: its result or why it failed, the results of the method and what it logged. -/
structure Outcome where
  result : Except Error Artifact
  store : Store
  log : List LogRecord

def solverRecord {φ : Type} (a : Analysis φ) (s : Strategy) (r : Solution φ) : LogRecord :=
  let subject := a.name ++ " on " ++ r.method.name
  if r.converged then
    ⟨.debug, .solver, subject ++ " converged after " ++ toString r.iterations ++ " iterations (" ++
      s.name ++ ")"⟩
  else
    ⟨.warning, .solver, subject ++ " stopped after " ++ toString r.iterations ++
      " iterations without reaching a fixpoint"⟩

/-- Builds the graph and keeps it in the DOT language too when the options ask for it. -/
def buildGraph (o : Options) (m : Method) (s : Store) : Outcome :=
  match Graph.build m with
  | .error e => ⟨.error e, s, []⟩
  | .ok g =>
    ⟨.ok (.graph g), if o.dot then s.insert Task.dotKey (.text (g.toDot m.name)) else s, []⟩

def solveOn {φ : Type} (a : Analysis φ) (wrap : Solution φ → Artifact) (o : Options) (m : Method)
    (s : Store) : Outcome :=
  let solution := do
    let g ← (← s.get m Task.graph.id).read Artifact.graph?
    solve a o.strategy o.maxIterations g
  match solution with
  | .error e => ⟨.error e, s, []⟩
  | .ok r => ⟨.ok (wrap r), s, [solverRecord a o.strategy r]⟩

/-- The graph of the method, the nodes that feasible edges reach in it, and the result for
liveness. All results have to be there before one is read, and constants are read at branches and
switches only. -/
def reach (m : Method) (s : Store) : Except Error (Graph × List Node × Artifact) := do
  let graph ← s.get m Task.graph.id
  let constants ← s.get m Task.constants.id
  let live ← s.get m Task.liveness.id
  let g ← graph.read Artifact.graph?
  let reachable ← g.feasibleUnder fun n => (constants.read Artifact.constants?).map (·.before n)
  return (g, reachable, live)

/-- The variables that are live after each node, which are read only when a statement is
reached. -/
def liveAfter (m : Method) (reachable : List Node) (live : Artifact) :
    Except Error (Node → LiveSet) :=
  if (List.range m.size).any (.stmt · ∈ reachable) then
    (live.read Artifact.live?).map Solution.after
  else .ok fun _ => .empty

/-- Finds the dead code. The nodes that feasible edges reach are kept before liveness is read. -/
def detect (m : Method) (s : Store) : Outcome :=
  match reach m s with
  | .error e => ⟨.error e, s, []⟩
  | .ok (g, reachable, live) =>
    let s := s.insert Task.reachableKey (.nodes reachable)
    let reached : LogRecord := ⟨.debug, .reachability, m.name ++ ": " ++
      toString reachable.length ++ " of " ++ toString g.nodes.length ++ " CFG nodes reachable"⟩
    match liveAfter m reachable live with
    | .error e => ⟨.error e, s, [reached]⟩
    | .ok live =>
      let dead := m.deadKinds reachable live
      let count (k : DeadKind) := toString (dead.filter (·.2 == k)).length
      ⟨.ok (.positions (dead.map (·.1))), s, [reached, ⟨.debug, .deadCode, m.name ++ ": " ++
        count .unreachable ++ " unreachable, " ++ count .useless ++ " useless assignment(s)"⟩]⟩

def perform (j : Job) (m : Method) (s : Store) : Outcome :=
  match j.task with
  | .graph => buildGraph j.options m s
  | .constants => solveOn ConstantPropagation.analysis .constants j.options m s
  | .liveness => solveOn Liveness.analysis .live j.options m s
  | .deadCode => detect m s

/-- Runs a job and keeps its result under its own name. -/
def run (j : Job) (m : Method) (s : Store) : Outcome :=
  let out := j.perform m s
  match out.result with
  | .ok a => { out with store := out.store.insert j.task.id a }
  | .error _ => out

end Job

end FlowLint
