import FlowLint.Expr
import FlowLint.Fact.Map
import FlowLint.Fact.Set
import FlowLint.Value

/-! # Facts of the bundled analyses

A constants fact binds variables to values, and variables that it does not bind are undefined. A
live fact is the set of live variables.
-/
namespace FlowLint

instance : FactValue Value := ⟨(· == ·), fun _ => false⟩

/-- What is known of the variables at a point. -/
abbrev Constants := FactMap Var Value Value.undef

/-- The variables that are live at a point. -/
abbrev LiveSet := FactSet Var

namespace Constants

/-- The pointwise order. -/
def leq (f g : Constants) : Bool :=
  (f.keys ++ g.keys).all fun x => (f.get x).leq (g.get x)

/-- Meets a fact into a target. -/
def merge (f target : Constants) : Constants :=
  f.entries.foldl (fun t b => (t.update b.1 (b.2.meet (t.get b.1))).1) target

end Constants

end FlowLint
