import FlowLint.Decimal.Binary64
import FlowLint.Text.CodeText

/-! # JSON values

Numbers without fraction and exponent are integers of any size, all others floating-point
numbers. Strings and keys may hold surrogates that stand alone. The members of an object keep
their order.
-/
namespace FlowLint

inductive Json where
  | null
  | bool (b : Bool)
  | int (n : Int)
  | real (x : Binary64)
  | str (s : CodeText)
  | arr (items : List Json)
  | obj (members : List (CodeText × Json))
  deriving Inhabited

namespace Json

/-- Binds a key in a list of members: a key that is there keeps its place. -/
def insertMember (key : CodeText) (value : Json) :
    List (CodeText × Json) → List (CodeText × Json)
  | [] => [(key, value)]
  | m :: rest => if m.1 = key then (key, value) :: rest else m :: insertMember key value rest

def lookupMember (key : CodeText) (members : List (CodeText × Json)) : Option Json :=
  (members.find? (·.1 == key)).map (·.2)

def member? (key : CodeText) : Json → Option Json
  | obj members => lookupMember key members
  | _ => none

end Json

end FlowLint
