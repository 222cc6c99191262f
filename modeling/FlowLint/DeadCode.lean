import FlowLint.Dataflow.Liveness
import FlowLint.Dataflow.Solver

/-! # Dead code

A statement is dead when no feasible path reaches it, or when it assigns a variable that is not
live afterwards and its right-hand side is free of effects. A statement that is not reached
counts only with a source line.
-/
namespace FlowLint

/-- Whether a statement assigns a variable that is dead afterwards, for no effect. -/
def Stmt.isUseless (s : Stmt Nat) (liveAfter : LiveSet) : Bool :=
  match s.action.definition? with
  | some (some (.var x), e) => !liveAfter.contains x && e.isEffectFree
  | _ => false

inductive DeadKind where
  | unreachable
  | useless
  deriving DecidableEq

def deadKind? (reachable : List Node) (liveAfter : Node → LiveSet) (i : Nat) (s : Stmt Nat) :
    Option DeadKind :=
  if .stmt i ∉ reachable then if 0 < s.line then some .unreachable else none
  else if s.isUseless (liveAfter (.stmt i)) then some .useless else none

/-- The dead statements of a method with their kinds, by ascending position. -/
def Method.deadKinds (m : Method) (reachable : List Node) (liveAfter : Node → LiveSet) :
    List (Nat × DeadKind) :=
  m.body.zipIdx.filterMap fun p => (deadKind? reachable liveAfter p.2 p.1).map fun k => (p.2, k)

def Method.deadCode (m : Method) (reachable : List Node) (live : Solution LiveSet) : List Nat :=
  (m.deadKinds reachable live.after).map (·.1)

end FlowLint
