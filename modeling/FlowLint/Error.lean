import FlowLint.Json.Display
import FlowLint.Json.Parser

/-! # Causes of failure

A reported cause has a code and a message. A fault has neither: it is an operation used outside
its domain.
-/
namespace FlowLint

/-- Why a system gives no bytes for a path. A fault in opening a file names the path, a fault in
reading one that is open does not. -/
structure FileFault where
  number : Nat
  reason : String
  opening : Bool
  deriving DecidableEq

inductive ErrorGroup where
  | lattice
  | body
  | configuration
  | solver
  deriving DecidableEq

inductive ErrorCode where
  | notConstant
  | danglingTarget
  | unknownStatement
  | malformedEdge
  | missingResult
  | unknownAnalysis
  | invalidOption
  | invalidPlan
  | notAnalysis
  deriving DecidableEq

namespace ErrorCode

def number : ErrorCode → Nat
  | notConstant => 1001
  | danglingTarget => 2001
  | unknownStatement => 2002
  | malformedEdge => 2003
  | missingResult => 3001
  | unknownAnalysis => 3002
  | invalidOption => 3003
  | invalidPlan => 3004
  | notAnalysis => 4001

def group : ErrorCode → ErrorGroup
  | notConstant => .lattice
  | danglingTarget | unknownStatement | malformedEdge => .body
  | missingResult | unknownAnalysis | invalidOption | invalidPlan => .configuration
  | notAnalysis => .solver

end ErrorCode

/-- A cause of failure. Statements, nodes and values are held as messages show them. Names that come
from a plan and paths are code texts. -/
inductive Error where
  | notConstant (value : String)
  /-- A statement jumps to a statement outside the body. -/
  | targetOutside (statement method : String)
  | noJumpTarget (statement : String)
  | noCaseTarget (statement : String) (value : Int)
  | repeatedStatement (statement method : String)
  | unknownNode (node method : String)
  | edgeWithoutCase (source : String)
  | missingResult (analysis method : String)
  | noReachableSet (method : String)
  | unscheduled (analysis needs : String)
  | unknownAnalysis (analysis : CodeText) (known : List String)
  | unknownStrategy (given : CodeText) (known : List String)
  | unknownOptions (analysis : CodeText) (names : List CodeText)
  | badOption (name : String) (analysis : CodeText) (wanted : String) (given : Json)
  | unknownFormat (given : Json) (known : List String)
  | planNotArray
  | badEntry (given : Json)
  | badOptions (analysis : Json)
  | badAnalysisId (given : Json)
  | unreadableFile (path : CodeText) (cause : FileFault)
  | malformedText (path : CodeText) (cause : Json.Located)
  /-- The solver was handed something that is no analysis. -/
  | notAnalysis (name : String)
  /-- A divisor that is not zero as given is zero as a word. -/
  | divisionByZero
  | noMeaning
  | noEdges
  | undecodable
  /-- A text has more digits in a row or deeper nesting than the system takes. -/
  | overLimit
  /-- A path holds a surrogate that stands for no byte of a name. -/
  | unencodablePath
  | nullInPath
  /-- A stored result is not of the kind that its reader needs. -/
  | foreignResult
  /-- A stored value was gone through or searched, which its kind does not allow. -/
  | unsearchable

namespace Error

/-- The code of a reported cause, none for a fault. -/
def code? : Error → Option ErrorCode
  | notConstant .. => some .notConstant
  | targetOutside .. | noJumpTarget .. | noCaseTarget .. => some .danglingTarget
  | repeatedStatement .. | unknownNode .. => some .unknownStatement
  | edgeWithoutCase .. => some .malformedEdge
  | missingResult .. | noReachableSet .. | unscheduled .. => some .missingResult
  | unknownAnalysis .. => some .unknownAnalysis
  | unknownStrategy .. | unknownOptions .. | badOption .. | unknownFormat .. =>
    some .invalidOption
  | planNotArray | badEntry .. | badOptions .. | badAnalysisId .. | unreadableFile ..
  | malformedText .. => some .invalidPlan
  | notAnalysis .. => some .notAnalysis
  | divisionByZero | noMeaning | noEdges | undecodable | overLimit | unencodablePath | nullInPath
  | foreignResult | unsearchable => none

def description : Error → CodeText
  | notConstant value => s!"{value} is not a constant"
  | targetOutside statement method =>
    s!"{statement} in {method} jumps to a statement outside the body"
  | noJumpTarget statement => s!"{statement} has no jump target"
  | noCaseTarget statement value => s!"{statement} has no target for case {value}"
  | repeatedStatement statement method => s!"statement {statement} appears twice in {method}"
  | unknownNode node method => s!"{node} is not a node of the CFG of {method}"
  | edgeWithoutCase source => s!"switch-case edge from {source} has no case value"
  | missingResult analysis method =>
    s!"result of analysis '{analysis}' is not available for method {method}; " ++
      "schedule it before its dependents"
  | noReachableSet method =>
    s!"no reachable set for {method}; run 'deadcode' first or pass reachable="
  | unscheduled analysis needs =>
    s!"analysis '{analysis}' requires '{needs}' to be scheduled before it"
  | unknownAnalysis analysis known =>
    "unknown analysis '" ++ analysis ++ "' (known: " ++ ", ".intercalate known ++ ")"
  | unknownStrategy given known =>
    "unknown worklist strategy " ++ Text.quote given ++ " (expected one of: " ++
      ", ".intercalate known ++ ")"
  | unknownOptions analysis names =>
    "unknown option(s) for '" ++ analysis ++ "': " ++ CodeText.intercalate ", " names
  | badOption name analysis wanted given =>
    s!"option '{name}' of '" ++ analysis ++ s!"' must be {wanted}, got " ++ given.display
  | unknownFormat given known =>
    "unknown report format " ++ given.display ++ " (expected one of: " ++
      ", ".intercalate known ++ ")"
  | planNotArray => "an analysis plan must be a JSON array"
  | badEntry given => "plan entry must be an object with an 'id', got " ++ given.display
  | badOptions analysis => "'options' of '" ++ analysis.plain ++ "' must be an object"
  | badAnalysisId given => "analysis id must be a non-empty string, got " ++ given.display
  | unreadableFile path cause =>
    "cannot read analysis plan " ++ path ++ ": [Errno " ++ toString cause.number ++ "] " ++
      cause.reason ++ if cause.opening then ": " ++ Text.quote path else ""
  | malformedText path cause =>
    path ++ ":" ++ toString cause.line ++ ":" ++ toString cause.column ++ ": " ++
      cause.fault.message
  | notAnalysis name => s!"{name} does not implement DataflowAnalysis"
  | divisionByZero => "division by zero"
  | noMeaning => "the operator has no meaning"
  | noEdges => "the node has no edges in this graph"
  | undecodable => "the text is not UTF-8"
  | overLimit => "the text is beyond the limits of the system"
  | unencodablePath => "the path cannot be encoded"
  | nullInPath => "the path holds a null character"
  | foreignResult => "the stored result is of another kind"
  | unsearchable => "the stored value holds no elements"

def message (e : Error) : CodeText :=
  match e.code? with
  | some c => "[DCE-" ++ toString c.number ++ "] " ++ e.description
  | none => e.description

end Error

end FlowLint
