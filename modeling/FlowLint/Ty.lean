/-! # Declared types -/
namespace FlowLint

inductive PrimTy where
  | byte | short | int | char | boolean | long | float | double
  deriving DecidableEq, Inhabited

def PrimTy.name : PrimTy → String
  | byte => "byte"
  | short => "short"
  | int => "int"
  | char => "char"
  | boolean => "boolean"
  | long => "long"
  | float => "float"
  | double => "double"

def PrimTy.all : List PrimTy := [byte, short, int, char, boolean, long, float, double]

def PrimTy.ofName? (s : String) : Option PrimTy := all.find? (·.name == s)

inductive Ty where
  | prim (p : PrimTy)
  | named (name : String)
  | array (elem : Ty)
  deriving DecidableEq, Inhabited

namespace Ty

def text : Ty → String
  | prim p => p.name
  | named name => name
  | array elem => elem.text ++ "[]"

/-- Whether values of the type are words of 32 bits. -/
def holdsInt : Ty → Bool
  | prim .byte | prim .short | prim .int | prim .char | prim .boolean => true
  | _ => false

end Ty

end FlowLint
