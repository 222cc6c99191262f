import FlowLint.Dataflow.ConstantPropagation
import FlowLint.Dataflow.Liveness
import FlowLint.Dataflow.Solver

/-! # The bundled analyses as choices of a caller

A caller picks what to solve at run time. What is not an analysis is refused before any step.
-/
namespace FlowLint

inductive Candidate where
  | constants
  | liveness
  /-- Something else, by the name of what it is. -/
  | other (kind : String)

inductive Solved where
  | constants (r : Solution Constants)
  | live (r : Solution LiveSet)

def Candidate.solve (c : Candidate) (s : Strategy) (bound : Int) (g : Graph) :
    Except Error Solved :=
  match c with
  | constants => (FlowLint.solve ConstantPropagation.analysis s bound g).map .constants
  | liveness => (FlowLint.solve Liveness.analysis s bound g).map .live
  | other kind => .error (.notAnalysis kind)

end FlowLint
