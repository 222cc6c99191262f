import FlowLint.Dataflow.Analysis
import FlowLint.Fact.Constants

/-! # Live variables

A backward analysis: a variable is live at a point when its value may be read before it is
assigned. Every variable is tracked.
-/
namespace FlowLint.Liveness

/-- What a statement assigns is dead before it, and what it reads is live. -/
def liveBefore (s : Stmt Nat) (live : LiveSet) : LiveSet :=
  let kept := match s.action.defines? with
    | some x => (live.remove x).1
    | none => live
  kept.addAll s.action.uses

def analysis : Analysis LiveSet where
  name := "LiveVariableAnalysis"
  direction := .backward
  boundary := fun _ => .empty
  initial := .empty
  merge := fun fact target => (target.union fact).1
  transfer := fun s live => .ok (liveBefore s live)
  same := FactSet.same

end FlowLint.Liveness
