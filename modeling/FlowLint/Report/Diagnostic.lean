import FlowLint.Json.Printer
import FlowLint.Report.Severity

/-! # Diagnostics -/
namespace FlowLint

/-- A point in a source file. Column zero stands for the whole line. -/
structure Location where
  file : String := ""
  line : Int := 0
  column : Int := 0

def Location.text (l : Location) : String :=
  l.file ++ ":" ++ toString l.line ++ if l.column = 0 then "" else ":" ++ toString l.column

structure Diagnostic where
  id : String
  message : String
  severity : Severity
  location : Location
  cwe : Int := 0
  index : Int := -1
  method : String := ""

namespace Diagnostic

def addon : String := "dataflow-dce"

/-- A diagnostic as an object. A number of a weakness is given only when there is one. -/
def toJson (d : Diagnostic) : Json :=
  let weakness : List (CodeText × Json) := if d.cwe = 0 then [] else [("cwe", .int d.cwe)]
  let members : List (CodeText × Json) := [
    ("file", .str d.location.file), ("linenr", .int d.location.line),
    ("column", .int d.location.column), ("severity", .str d.severity.name),
    ("message", .str d.message), ("addon", .str addon), ("errorId", .str d.id),
    ("extra", .str d.method)]
  .obj (members ++ weakness)

def tag (d : Diagnostic) : String := "[" ++ d.id ++ "]"

/-- A diagnostic on one line with its place in brackets. -/
def bracketLine (d : Diagnostic) : String :=
  "[" ++ d.location.file ++ ":" ++ toString d.location.line ++ "]: (" ++ d.severity.name ++ ") " ++
    d.message ++ " " ++ d.tag

def textLine (paint : Painter) (colour : Bool) (d : Diagnostic) : String :=
  let place := d.location.text
  let severity := d.severity.name
  if colour then
    paint true none place ++ ": " ++ paint true (some d.severity.colour) severity ++ ": " ++
      d.message ++ " " ++ paint false (some .darkGrey) d.tag
  else place ++ ": " ++ severity ++ ": " ++ d.message ++ " " ++ d.tag

end Diagnostic

end FlowLint
