import FlowLint.Fact.Constants

/-! # Evaluation over constants

An expression has the value that is known for it under a constants fact. A division by a zero
constant is undefined, whatever its dividend, because the path stops there. Allocations, casts,
field and array accesses, calls and applications without a meaning are not modelled.
-/
namespace FlowLint

namespace BinOp

def onValues (op : BinOp) (left right : Value) : Except Error Value :=
  if op.traps && right == .const 0 then .ok .undef
  else
    match left, right with
    | .nac, _ | _, .nac => .ok .nac
    | .const a, .const b =>
      (op.fold a b).map fun
        | some n => .const n
        | none => .undef
    | _, _ => .ok .undef

end BinOp

namespace Expr

/-- The value of an expression. Literals are wrapped to words; variables have the value they are
bound to. -/
def eval (known : Constants) : Expr → Except Error Value
  | lit n => .ok (.const (Word32.wrap n))
  | var x => .ok (known.get x)
  | bin op l r => do
    let a ← l.eval known
    let b ← r.eval known
    op.onValues a b
  | _ => .ok .nac

end Expr

/-- Folds an application of two integers. An application without a meaning cannot be folded. -/
def foldApplication (meaning : Option BinOp) (left right : Int) : Except Error (Option Int) :=
  match meaning with
  | some op => op.fold left right
  | none => .error .noMeaning

end FlowLint
