import FlowLint.Method

/-! # Dataflow analyses

An analysis gives every node two facts. The consumed one is met from the neighbours that control
comes from (goes to, for a backward analysis); the produced one is its transfer.
-/
namespace FlowLint

inductive Direction where
  | forward
  | backward
  deriving DecidableEq, Inhabited

def Direction.name : Direction → String
  | forward => "forward"
  | backward => "backward"

/-- What the solver needs to know of an analysis. -/
structure Analysis (φ : Type) where
  name : String
  direction : Direction
  /-- What the entry (the exit, backward) produces. -/
  boundary : Method → φ
  /-- Every other fact before the first step. -/
  initial : φ
  /-- Meets a fact into a target. -/
  merge : (fact target : φ) → φ
  /-- The fact that a statement produces from the one it consumes. -/
  transfer : Stmt Nat → φ → Except Error φ
  same : φ → φ → Bool

/-- Whether the transfer of a statement keeps the order of the given facts. Pairs are tried in
order up to the first that fails. -/
def Analysis.isMonotoneOn {φ : Type} (a : Analysis φ) (s : Stmt Nat) (leq : φ → φ → Bool)
    (samples : List φ) : Except Error Bool :=
  (samples.flatMap fun f => samples.map fun g => (f, g)).allM fun (f, g) =>
    if leq f g then do
      let f ← a.transfer s f
      let g ← a.transfer s g
      return leq f g
    else .ok true

end FlowLint
