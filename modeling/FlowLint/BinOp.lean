import FlowLint.Error
import FlowLint.Word32

/-! # Binary operators -/
namespace FlowLint

inductive BinOp where
  | add | sub | mul | div | rem
  | and | or | xor
  | shl | shr | ushr
  | eq | ne | lt | le | gt | ge
  deriving DecidableEq, Inhabited

inductive OpFamily where
  | arithmetic
  | bitwise
  | shift
  | comparison
  deriving DecidableEq

namespace BinOp

def family : BinOp → OpFamily
  | add | sub | mul | div | rem => .arithmetic
  | and | or | xor => .bitwise
  | shl | shr | ushr => .shift
  | eq | ne | lt | le | gt | ge => .comparison

def symbol : BinOp → String
  | add => "+"
  | sub => "-"
  | mul => "*"
  | div => "/"
  | rem => "%"
  | and => "&"
  | or => "|"
  | xor => "^"
  | shl => "<<"
  | shr => ">>"
  | ushr => ">>>"
  | eq => "=="
  | ne => "!="
  | lt => "<"
  | le => "<="
  | gt => ">"
  | ge => ">="

def all : List BinOp :=
  [add, sub, mul, div, rem, and, or, xor, shl, shr, ushr, eq, ne, lt, le, gt, ge]

def ofSymbol? (s : String) : Option BinOp := all.find? (·.symbol == s)

/-- Division and remainder trap on a zero divisor. -/
def traps : BinOp → Bool
  | div | rem => true
  | _ => false

def truth (b : Bool) : Int := if b then 1 else 0

def onWords (op : BinOp) (a b : Int) : Int :=
  match op with
  | add => Word32.wrap (a + b)
  | sub => Word32.wrap (a - b)
  | mul => Word32.wrap (a * b)
  | div => Word32.div a b
  | rem => Word32.rem a b
  | and => Word32.land a b
  | or => Word32.lor a b
  | xor => Word32.lxor a b
  | shl => Word32.shiftLeft a b
  | shr => Word32.shiftRight a b
  | ushr => Word32.shiftRightZero a b
  | eq => truth (a = b)
  | ne => truth (a ≠ b)
  | lt => truth (a < b)
  | le => truth (a ≤ b)
  | gt => truth (b < a)
  | ge => truth (b ≤ a)

/-- Folds an operator on two integers, which are wrapped first: none where it traps on a zero
divisor. The divisor is compared with zero as it is given. -/
def fold (op : BinOp) (left right : Int) : Except Error (Option Int) :=
  if op.traps && right == 0 then .ok none
  else if op.traps && Word32.wrap right == 0 then .error .divisionByZero
  else .ok (some (op.onWords (Word32.wrap left) (Word32.wrap right)))

end BinOp

end FlowLint
