import FlowLint.Dataflow.Analysis
import FlowLint.Eval

/-! # Constant propagation

A forward analysis over constants facts. Only variables that hold words are tracked; nothing is
known of parameters.
-/
namespace FlowLint.ConstantPropagation

def boundary (m : Method) : Constants :=
  m.params.foldl (fun f x => if x.holdsInt then (f.update x .nac).1 else f) .empty

/-- A definition of a tracked variable binds it to the value of its right-hand side. -/
def transfer (s : Stmt Nat) (known : Constants) : Except Error Constants :=
  match s.action.definition? with
  | some (some (.var x), e) =>
    if x.holdsInt then (e.eval known).map fun v => (known.update x v).1 else .ok known
  | _ => .ok known

def analysis : Analysis Constants where
  name := "ConstantPropagation"
  direction := .forward
  boundary := boundary
  initial := .empty
  merge := Constants.merge
  transfer := transfer
  same := fun f g => f.sameEntries g

end FlowLint.ConstantPropagation
