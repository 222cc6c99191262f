import FlowLint.Pipeline.Job
import FlowLint.Report.Diagnostic

/-! # Reports of dead code

A report collects diagnostics of one or more methods, counts them by kind and renders them.
-/
namespace FlowLint

structure Tally where
  unreachable : Nat := 0
  useless : Nat := 0

namespace Tally

def unreachableId : String := "unreachableCode"

def uselessId : String := "deadAssignment"

def count (t : Tally) (d : Diagnostic) : Tally :=
  if d.id = unreachableId then { t with unreachable := t.unreachable + 1 }
  else if d.id = uselessId then { t with useless := t.useless + 1 }
  else t

def total (t : Tally) : Nat := t.unreachable + t.useless

def summary (t : Tally) : String :=
  if t.total = 0 then "no dead code found"
  else
    ", ".intercalate
      ((if t.unreachable = 0 then [] else [toString t.unreachable ++ " unreachable"]) ++
        (if t.useless = 0 then []
          else [toString t.useless ++ " dead assignment" ++
            if t.useless = 1 then "" else "s"]))

end Tally

inductive ReportFormat where
  | text
  | cppcheck
  | json
  deriving DecidableEq

namespace ReportFormat

def name : ReportFormat → String
  | text => "text"
  | cppcheck => "cppcheck"
  | json => "json"

def all : List ReportFormat := [text, cppcheck, json]

/-- The format of a name, which has to be given as a text. -/
def ofJson (j : Json) : Except Error ReportFormat :=
  let named? := match j with
    | .str s => all.find? (CodeText.ofString ·.name == s)
    | _ => none
  match named? with
  | some f => .ok f
  | none => .error (.unknownFormat j (all.map name))

end ReportFormat

/-- A statement that is to be reported. One from outside the method has a number that tells it from
all others, whatever they say, and an index of its own. -/
inductive Subject where
  | node (n : Node)
  | outside (number : Nat) (index : Int) (s : Stmt Int)

namespace Subject

/-- Whether two are one and the same statement. -/
def same : Subject → Subject → Bool
  | node n, node k => n = k
  | outside i .., outside j .. => i = j
  | _, _ => false

variable (m : Method)

def index : Subject → Int
  | node n => m.index n
  | outside _ i _ => i

def line : Subject → Int
  | node n => (m.stmtAt n).line
  | outside _ _ s => s.line

def place? : Subject → Option LValue
  | node n => (m.stmtAt n).action.place?
  | outside _ _ s => s.action.place?

def text : Subject → String
  | node n => m.nodeText n
  | outside _ _ s => s.text fun i => if i < 0 then "?" else toString i

end Subject

/-- Diagnostics in the order in which they came, and their counts. Diagnostics of dead code get the
severity of the report. -/
structure Report where
  severity : Severity := .style
  diagnostics : List Diagnostic := []
  tally : Tally := {}

namespace Report

def add (r : Report) (d : Diagnostic) : Report :=
  { r with diagnostics := r.diagnostics ++ [d], tally := r.tally.count d }

/-- The diagnostic of a dead statement: it is never executed, or else what it assigns is never
used. -/
def diagnosticFor (r : Report) (m : Method) (reachable : List Subject) (s : Subject) : Diagnostic :=
  let place : Location := { file := m.file, line := max (s.line m) 0 }
  if reachable.any s.same then
    let assigned := ((s.place? m).map LValue.text).getD "None"
    { id := Tally.uselessId
      message := "Variable '" ++ assigned ++ "' is assigned a value that is never used"
      severity := r.severity, location := place, cwe := 563, index := s.index m, method := m.name }
  else
    { id := Tally.unreachableId
      message := "Statement '" ++ s.text m ++ "' in " ++ m.name ++ " is never executed"
      severity := r.severity, location := place, cwe := 561, index := s.index m, method := m.name }

def storedSet (m : Method) (s : Store) : Except Error Artifact :=
  match s.find? Task.reachableKey with
  | some a => .ok a
  | none => .error (.noReachableSet m.name)

/-- The statements that can be found in a result. An array or object that a caller stored holds
none. -/
def subjectsIn : Artifact → Except Error (List Subject)
  | .value (.arr _) | .value (.obj _) => .ok []
  | a =>
    match a.nodes? with
    | some ns => .ok (ns.map .node)
    | none => .error .unsearchable

/-- What a report goes by to tell the statements that are reached: those that are given, or else the
result that is stored for them. That there is none fails at once, and that it cannot be searched
fails with the first search. -/
def reachableSet (m : Method) (s : Store) :
    Option (List Subject) → Except Error (Except Error (List Subject))
  | some given => .ok (.ok given)
  | none => (storedSet m s).map subjectsIn

/-- Adds the diagnostics of dead statements, and gives them. The reachable set is searched only when
there is a statement. -/
def addDead (r : Report) (m : Method) (s : Store) (dead : List Subject)
    (reachable? : Option (List Subject)) : Except Error (Report × List Diagnostic) := do
  let set ← reachableSet m s reachable?
  let reachable ← if dead.isEmpty then .ok [] else set
  let added := dead.map (r.diagnosticFor m reachable)
  return (added.foldl add r, added)

def characters (s : CodeText) : List Json := s.points.map fun p => .str ⟨[p]⟩

/-- The elements of a result that is not made of nodes: items, keys or characters. -/
def elements : Artifact → Except Error (List Json)
  | .value (.arr items) => .ok items
  | .value (.obj members) => .ok (members.map fun b => .str b.1)
  | .value (.str s) => .ok (characters s)
  | .text s => .ok (characters s)
  | _ => .error .unsearchable

/-- Whether a value can be looked for in a result. Sets of nodes and objects take scalars only, and
texts take texts. -/
def canSearch : Artifact → Json → Bool
  | .graph _, _ | .positions _, _ | .value (.arr _), _ => true
  | .nodes _, v | .value (.obj _), v => match v with
    | .arr _ | .obj _ => false
    | _ => true
  | .text _, .str _ | .value (.str _), .str _ => true
  | _, _ => false

/-- Adds the dead code that is stored, node by node in the order of the result. A result that is not
made of nodes may not hold anything, since it cannot hold statements. -/
def addStored (r : Report) (m : Method) (s : Store) :
    Except Error (Report × List Diagnostic) := do
  let stored ← s.get m Task.deadCode.id
  match stored.nodes? with
  | some dead => r.addDead m s (dead.map .node) none
  | none =>
    let set ← storedSet m s
    match ← elements stored with
    | [] => return (r, [])
    | first :: _ => .error (if canSearch set first then .foreignResult else .unsearchable)

def render (r : Report) (paint : Painter) (f : ReportFormat) (colour : Bool) : String :=
  match f with
  | .json => (Json.arr (r.diagnostics.map Diagnostic.toJson)).indented 0
  | .cppcheck => "\n".intercalate (r.diagnostics.map Diagnostic.bracketLine)
  | .text =>
    let lines := r.diagnostics.map (Diagnostic.textLine paint colour)
    "\n".intercalate (lines ++ [r.tally.summary])

/-- All diagnostics as they are written to a stream, where a line break ends them. -/
def written (r : Report) (paint : Painter) (f : ReportFormat) (colour : Bool) : String :=
  r.render paint f colour ++ "\n"

end Report

end FlowLint
