import FlowLint.Fact.Map

/-! # Scalars as values of map facts

True is the same as one and false the same as zero.
-/
namespace FlowLint

inductive Scalar where
  | null
  | bool (b : Bool)
  | int (n : Int)
  | str (s : String)
  deriving DecidableEq, Inhabited

namespace Scalar

def number? : Scalar → Option Int
  | bool b => some (if b then 1 else 0)
  | int n => some n
  | _ => none

def same (a b : Scalar) : Bool :=
  match a.number?, b.number? with
  | some m, some n => m == n
  | _, _ => a == b

instance : FactValue Scalar := ⟨same, (· == null)⟩

def text : Scalar → String
  | null => "None"
  | bool b => if b then "True" else "False"
  | int n => toString n
  | str s => s

end Scalar

end FlowLint
