import FlowLint.Dataflow.Solver
import FlowLint.Fact.Constants

/-! # Results of a method

Results are kept under names. An analysis keeps its result under its own name. A caller may store
any value under any name, so whoever reads a result says what it has to be.
-/
namespace FlowLint

inductive Artifact where
  | graph (g : Graph)
  | constants (r : Solution Constants)
  | live (r : Solution LiveSet)
  | nodes (ns : List Node)
  | positions (is : List Nat)
  | text (s : String)
  /-- A value that a caller stored. -/
  | value (j : Json)

structure Store where
  entries : List (String × Artifact)

namespace Store

def empty : Store := ⟨[]⟩

def find? (s : Store) (key : String) : Option Artifact := s.entries.lookup key

def contains (s : Store) (key : String) : Bool := (s.find? key).isSome

/-- Stores a result in place of any other one of its name. -/
def insert (s : Store) (key : String) (a : Artifact) : Store :=
  ⟨(key, a) :: s.entries.filter (·.1 ≠ key)⟩

def keys (s : Store) : List String := (s.entries.map (·.1)).mergeSort (· ≤ ·)

def get (s : Store) (m : Method) (key : String) : Except Error Artifact :=
  match s.find? key with
  | some a => .ok a
  | none => .error (.missingResult key m.name)

end Store

namespace Artifact

def read {α : Type} (as : Artifact → Option α) (a : Artifact) : Except Error α :=
  match as a with
  | some x => .ok x
  | none => .error .foreignResult

def graph? : Artifact → Option Graph
  | graph g => some g
  | _ => none

def constants? : Artifact → Option (Solution Constants)
  | constants r => some r
  | _ => none

def live? : Artifact → Option (Solution LiveSet)
  | live r => some r
  | _ => none

def positions? : Artifact → Option (List Nat)
  | positions is => some is
  | _ => none

/-- The nodes of a result that is made of nodes. -/
def nodes? : Artifact → Option (List Node)
  | graph g => some g.nodes
  | nodes ns => some ns
  | positions is => some (is.map .stmt)
  | _ => none

end Artifact

end FlowLint
