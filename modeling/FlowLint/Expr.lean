import FlowLint.BinOp
import FlowLint.Var

/-! # Expressions

Operands may be nested to any depth. An operator may also be applied without a meaning: such an
application is printed and scanned like any other, but nothing is known of its value.
-/
namespace FlowLint

inductive Expr where
  | lit (n : Int)
  | var (x : Var)
  | bin (op : BinOp) (left right : Expr)
  /-- An application that no family of operators interprets. -/
  | uninterpreted (op : BinOp) (left right : Expr)
  /-- An allocation, of an array when lengths are given. -/
  | new (ty : Ty) (lengths : List Expr)
  | cast (value : Expr) (ty : Ty)
  /-- A field of an object, or of a class when there is no base. -/
  | field (name : String) (base : Option Var) (owner : String)
  | elem (base : Var) (index : Expr)
  /-- A call, of a static method when there is no receiver. -/
  | call (method : String) (args : List Expr) (receiver : Option Var)
  deriving Inhabited

namespace Expr

mutual

/-- The variables read by an expression, in reading order and with repeats. -/
def uses : Expr → List Var
  | lit _ => []
  | var x => [x]
  | bin _ l r => l.uses ++ r.uses
  | uninterpreted _ l r => l.uses ++ r.uses
  | new _ lengths => usesList lengths
  | cast v _ => v.uses
  | field _ base _ => base.toList
  | elem base index => base :: index.uses
  | call _ args receiver => receiver.toList ++ usesList args

def usesList : List Expr → List Var
  | [] => []
  | e :: rest => e.uses ++ usesList rest

end

mutual

def text : Expr → String
  | lit n => toString n
  | var x => x.name
  | bin op l r => l.text ++ " " ++ op.symbol ++ " " ++ r.text
  | uninterpreted op l r => l.text ++ " " ++ op.symbol ++ " " ++ r.text
  | new ty lengths =>
    "new " ++ ty.text ++ String.join ((textList lengths).map fun n => "[" ++ n ++ "]")
  | cast v ty => "(" ++ ty.text ++ ") " ++ v.text
  | field name base owner => (base.map Var.name).getD owner ++ "." ++ name
  | elem base index => base.name ++ "[" ++ index.text ++ "]"
  | call method args receiver =>
    ((receiver.map fun x => x.name ++ ".").getD "") ++ method ++ "(" ++
      ", ".intercalate (textList args) ++ ")"

def textList : List Expr → List String
  | [] => []
  | e :: rest => e.text :: textList rest

end

mutual

/-- Whether two expressions are built alike. An application without a meaning is like no other
one. -/
def alike : Expr → Expr → Bool
  | lit m, lit n => m == n
  | var x, var y => x == y
  | bin o l r, bin o' l' r' => o == o' && alike l l' && alike r r'
  | new t es, new t' es' => t == t' && alikeList es es'
  | cast v t, cast v' t' => alike v v' && t == t'
  | field n b c, field n' b' c' => n == n' && b == b' && c == c'
  | elem b i, elem b' i' => b == b' && alike i i'
  | call m es b, call m' es' b' => m == m' && alikeList es es' && b == b'
  | _, _ => false

def alikeList : List Expr → List Expr → Bool
  | [], [] => true
  | e :: es, e' :: es' => alike e e' && alikeList es es'
  | _, _ => false

end

def traps : Expr → Bool
  | bin op _ _ => op.traps
  | _ => false

/-- Whether dropping the expression is taken to be unobservable, by its outermost form. -/
def isEffectFree : Expr → Bool
  | new .. | cast .. | field .. | elem .. | call .. => false
  | e => !e.traps

end Expr

end FlowLint
