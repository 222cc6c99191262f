import FlowLint.Error

/-! # The flat lattice of constants

Undefined lies below every constant and every constant below "not a constant". Distinct
constants are not comparable. `leq_iff` says so.
-/
namespace FlowLint

/-- What is known of the value of a variable. -/
inductive Value where
  | undef
  | const (n : Int)
  | nac
  deriving DecidableEq, Inhabited

namespace Value

def leq : Value → Value → Bool
  | undef, _ | _, nac => true
  | const m, const n => m == n
  | _, _ => false

/-- What is known where two paths come together. -/
def meet : Value → Value → Value
  | nac, _ | _, nac => nac
  | undef, v | v, undef => v
  | const m, const n => if m = n then const m else nac

def isConst : Value → Bool
  | const _ => true
  | _ => false

def text : Value → String
  | undef => "UNDEF"
  | const n => toString n
  | nac => "NAC"

def describe (v : Value) : String := "Value(" ++ v.text ++ ")"

def constant : Value → Except Error Int
  | const n => .ok n
  | v => .error (.notConstant v.text)

theorem leq_iff {v w : Value} : v.leq w = true ↔ v = undef ∨ w = nac ∨ v = w := by
  cases v <;> cases w <;> simp [leq]

end Value

end FlowLint
