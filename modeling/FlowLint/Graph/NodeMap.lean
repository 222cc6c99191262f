import FlowLint.Graph.Node

/-! # One value for every node of a method -/
namespace FlowLint

/-- A value for entry, exit and every statement. -/
structure NodeMap (α : Type) where
  entry : α
  body : Array α
  exit : α

namespace NodeMap

variable {α : Type}

def replicate (size : Nat) (a : α) : NodeMap α := ⟨a, Array.replicate size a, a⟩

def get? (m : NodeMap α) : Node → Option α
  | .entry => some m.entry
  | .stmt i => m.body[i]?
  | .exit => some m.exit
  | .stray .. => none

def getD (m : NodeMap α) (n : Node) (a : α) : α := (m.get? n).getD a

/-- Gives a node another value. A node that has none is left without one. -/
def set (m : NodeMap α) (n : Node) (a : α) : NodeMap α :=
  match n with
  | .entry => { m with entry := a }
  | .stmt i => { m with body := m.body.setIfInBounds i a }
  | .exit => { m with exit := a }
  | .stray .. => m

theorem get?_set (m : NodeMap α) (n k : Node) (a : α) :
    (m.set n a).get? k = if n = k then (m.get? k).map fun _ => a else m.get? k := by
  cases n <;> cases k <;> simp [set, get?, Array.getElem?_setIfInBounds]
  next i j =>
    by_cases h : i = j
    · subst h
      by_cases hi : i < m.body.size <;> simp [hi]
    · simp [h]

end NodeMap

end FlowLint
