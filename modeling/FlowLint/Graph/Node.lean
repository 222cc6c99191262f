import FlowLint.Method

/-! # Nodes

The graph of a method has a node for every statement, one for the entry and one for the exit. A
stray is a statement that belongs to no body; it is never a node of a graph.
-/
namespace FlowLint

/-- A node of a graph, or a statement outside every graph. -/
inductive Node where
  | entry
  | stmt (position : Nat)
  | exit
  | stray (line : Int) (text : String)
  deriving DecidableEq, Inhabited

namespace Method

variable (m : Method)

def size : Nat := m.body.length

def nodes : List Node := .entry :: (List.range m.size).map .stmt ++ [.exit]

def hasNode : Node → Bool
  | .entry | .exit => true
  | .stmt i => i < m.size
  | .stray .. => false

/-- The statement of a node. Entry, exit and strays do nothing. -/
def stmtAt : Node → Stmt Nat
  | .entry => ⟨-1, .nop "entry"⟩
  | .exit => ⟨-1, .nop "exit"⟩
  | .stmt i => m.body[i]?.getD ⟨-1, .nop ""⟩
  | .stray line text => ⟨line, .nop text⟩

/-- The index of a node. Statements have their positions, entry comes before the first and exit
after the last; a stray has the index of a statement without a body. -/
def index : Node → Int
  | .entry | .stray .. => -1
  | .stmt i => i
  | .exit => m.size

def place : Node → Nat
  | .entry | .stray .. => 0
  | .stmt i => i + 1
  | .exit => m.size + 1

def nodeText (n : Node) : String := (m.stmtAt n).shown

def describeNode (n : Node) : String := (m.stmtAt n).describe toString (m.index n)

end Method

end FlowLint
