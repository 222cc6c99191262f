import FlowLint.Graph.Basic

/-! # The control flow of a method

Entry leads to the first statement, a statement that falls through to the next one, a jump to its
targets and a return to the exit. What follows the last statement is the exit.
-/
namespace FlowLint

namespace Method

variable (m : Method)

/-- The node of a position, the exit when no statement stands there. -/
def nodeAt (i : Nat) : Node := if i < m.size then .stmt i else .exit

def required (target : Option Nat) (missing : Error) : Except Error Node :=
  match target with
  | some t => .ok (.stmt t)
  | none => .error missing

def edgesFrom (i : Nat) (s : Stmt Nat) : Except Error (List Edge) :=
  let shown := s.describe toString i
  let jump (target : Option Nat) := required target (.noJumpTarget shown)
  match s.action with
  | .branch _ target => do
    return [⟨.stmt i, ← jump target, .ifTrue, none⟩,
      ⟨.stmt i, m.nodeAt (i + 1), .ifFalse, none⟩]
  | .goto target => do return [⟨.stmt i, ← jump target, .normal, none⟩]
  | .switch _ cases default => do
    let cases ← cases.mapM fun c => do
      return (⟨.stmt i, ← required c.2 (.noCaseTarget shown c.1), .switchCase, some c.1⟩ : Edge)
    return cases ++ default.toList.map fun t => ⟨.stmt i, .stmt t, .switchDefault, none⟩
  | .ret _ => .ok [⟨.stmt i, .exit, .normal, none⟩]
  | _ => .ok [⟨.stmt i, m.nodeAt (i + 1), .normal, none⟩]

/-- The edges out of the statements from a position on. -/
def edgesOf : (i : Nat) → List (Stmt Nat) → Except Error (List Edge)
  | _, [] => .ok []
  | i, s :: rest => do
    let here ← m.edgesFrom i s
    return here ++ (← edgesOf (i + 1) rest)

/-- The edges of the control flow. The first jump without a target is an error. -/
def flowEdges : Except Error (List Edge) := do
  return ⟨.entry, m.nodeAt 0, .normal, none⟩ :: (← m.edgesOf 0 m.body)

end Method

def Graph.build (m : Method) : Except Error Graph := do
  return (← m.flowEdges).foldl Graph.push (.empty m)

end FlowLint
