import FlowLint.Ty

/-! # Variables -/
namespace FlowLint

/-- A local variable or parameter. Variables are told apart by `id`: two of them may share a
name. -/
structure Var where
  id : String
  name : String
  ty : Ty
  deriving DecidableEq, Inhabited

namespace Var

def holdsInt (x : Var) : Bool := x.ty.holdsInt

def describe (x : Var) : String := "Var(" ++ x.name ++ ": " ++ x.ty.text ++ ")"

end Var

end FlowLint
