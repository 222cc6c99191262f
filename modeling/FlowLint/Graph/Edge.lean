import FlowLint.Graph.Node

/-! # Edges -/
namespace FlowLint

inductive EdgeKind where
  | normal
  | ifTrue
  | ifFalse
  | switchCase
  | switchDefault
  deriving DecidableEq, Inhabited

namespace EdgeKind

def name : EdgeKind → String
  | normal => "normal"
  | ifTrue => "if-true"
  | ifFalse => "if-false"
  | switchCase => "switch-case"
  | switchDefault => "switch-default"

def all : List EdgeKind := [normal, ifTrue, ifFalse, switchCase, switchDefault]

def ofName? (s : String) : Option EdgeKind := all.find? (·.name == s)

end EdgeKind

structure Edge where
  source : Node
  target : Node
  kind : EdgeKind
  case? : Option Int
  deriving DecidableEq, Inhabited

namespace Edge

/-- An edge for a case needs the constant of the case. -/
def isWellFormed (e : Edge) : Bool := e.kind ≠ .switchCase || e.case?.isSome

/-- An edge if it is well formed. Nodes are shown in the context of a method. -/
def check (m : Method) (e : Edge) : Except Error Edge :=
  if e.isWellFormed then .ok e else .error (.edgeWithoutCase (m.describeNode e.source))

def describe (m : Method) (e : Edge) : String :=
  "CFGEdge(" ++ toString (m.index e.source) ++ " -> " ++ toString (m.index e.target) ++
    ", kind=" ++ Text.quote e.kind.name ++
    ((e.case?.map fun n => ", case=" ++ toString n).getD "") ++ ")"

end Edge

end FlowLint
