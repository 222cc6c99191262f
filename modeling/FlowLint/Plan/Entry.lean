import FlowLint.Dataflow.Worklist

/-! # Entries of a plan

An entry names an analysis and gives options to it. Everything is checked when the entry is made,
so that the options of an entry are always usable.
-/
namespace FlowLint

structure Options where
  strategy? : Option Strategy := none
  maxIterations? : Option Nat := none
  dot? : Option Bool := none
  maxIterations_pos : ∀ n ∈ maxIterations?, 0 < n := by simp

namespace Options

def strategy (o : Options) : Strategy := o.strategy?.getD .rpo

def maxIterations (o : Options) : Nat := o.maxIterations?.getD 1000000

def dot (o : Options) : Bool := o.dot?.getD false

def names : List String := ["dot", "max-iterations", "strategy"]

def given (o : Options) : List String :=
  (o.dot?.map fun _ => "dot").toList ++ (o.maxIterations?.map fun _ => "max-iterations").toList ++
    (o.strategy?.map fun _ => "strategy").toList

end Options

structure PlanEntry where
  id : CodeText
  options : Options := {}

namespace PlanEntry

/-- The name of an analysis: a text that is not empty. -/
def readId : Json → Except Error CodeText
  | .str s => if s.isEmpty then .error (.badAnalysisId (.str s)) else .ok s
  | j => .error (.badAnalysisId j)

/-- Refuses options that are not known, named in sorted order. -/
def checkNames (id : CodeText) (members : List (CodeText × Json)) : Except Error Unit :=
  let unknown := (members.map (·.1)).filter (· ∉ Options.names.map CodeText.ofString)
  if unknown.isEmpty then .ok ()
  else .error (.unknownOptions id (unknown.mergeSort CodeText.leq))

def readStrategy (id : CodeText) : Option Json → Except Error (Option Strategy)
  | none => .ok none
  | some (.str s) => (Strategy.ofName s).map some
  | some j => .error (.badOption "strategy" id "a string" j)

def readMaxIterations (id : CodeText) :
    Option Json → Except Error { n? : Option Nat // ∀ n ∈ n?, 0 < n }
  | none => .ok ⟨none, by simp⟩
  | some (.int n) =>
    if h : 0 < n then .ok ⟨some n.toNat, by simp; omega⟩
    else .error (.badOption "max-iterations" id "a positive integer" (.int n))
  | some j => .error (.badOption "max-iterations" id "a positive integer" j)

def readDot (id : CodeText) : Option Json → Except Error (Option Bool)
  | none => .ok none
  | some (.bool b) => .ok (some b)
  | some j => .error (.badOption "dot" id "true or false" j)

/-- An entry from a name and the members of an options object. The name is checked first, then
the names of the options, then their values. -/
def make (id : Json) (members : List (CodeText × Json)) : Except Error PlanEntry := do
  let id ← readId id
  checkNames id members
  let strategy ← readStrategy id (Json.lookupMember "strategy" members)
  let ⟨maxIterations, hpos⟩ ← readMaxIterations id (Json.lookupMember "max-iterations" members)
  let dot ← readDot id (Json.lookupMember "dot" members)
  return ⟨id, ⟨strategy, maxIterations, dot, hpos⟩⟩

/-- An entry from an object with an `id` and perhaps `options`. -/
def ofJson (j : Json) : Except Error PlanEntry :=
  match j.member? "id" with
  | none => .error (.badEntry j)
  | some id =>
    match j.member? "options" with
    | none => make id []
    | some (.obj members) => make id members
    | some _ => .error (.badOptions id)

end PlanEntry

abbrev Plan := List PlanEntry

namespace Plan

def standard : Plan := [⟨"cfg", {}⟩, ⟨"constprop", {}⟩, ⟨"livevar", {}⟩, ⟨"deadcode", {}⟩]

/-- A plan from an array of entries. The first bad entry is an error. -/
def ofJson : Json → Except Error Plan
  | .arr items => items.mapM PlanEntry.ofJson
  | _ => .error .planNotArray

end Plan

end FlowLint
