import FlowLint.Json.Basic
import FlowLint.Decimal.Shortest
import FlowLint.Text.Quoted

/-! # How messages show a JSON value -/
namespace FlowLint.Json

/-- Messages write an exponent from `1e+16` on and below `0.0001`, with two digits or more. -/
def realLayout : Decimal.Layout := ⟨-4, 16, 2, "nan", "inf"⟩

mutual

/-- The text of a value inside another one, where texts are quoted. -/
def display : Json → String
  | null => "None"
  | bool b => if b then "True" else "False"
  | int n => toString n
  | real x => realLayout.text x
  | str s => Text.quote s
  | arr items => "[" ++ ", ".intercalate (displayItems items) ++ "]"
  | obj members => "\x7b" ++ ", ".intercalate (displayMembers members) ++ "\x7d"

def displayItems : List Json → List String
  | [] => []
  | v :: rest => v.display :: displayItems rest

def displayMembers : List (CodeText × Json) → List String
  | [] => []
  | (k, v) :: rest => (Text.quote k ++ ": " ++ v.display) :: displayMembers rest

end

/-- The text of a value that stands alone, where a text stands for itself. -/
def plain : Json → CodeText
  | str s => s
  | v => v.display

end FlowLint.Json
