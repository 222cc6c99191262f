import FlowLint.Text.Blank

/-! # Severities and terminal colours

How a terminal shows a colour is left open: a painter says it.
-/
namespace FlowLint

inductive Colour where
  | red
  | yellow
  | cyan
  | white
  | darkGrey
  deriving DecidableEq

namespace Colour

def name : Colour → String
  | red => "red"
  | yellow => "yellow"
  | cyan => "cyan"
  | white => "white"
  | darkGrey => "dark_grey"

end Colour

/-- A way to show a text on a terminal, perhaps bold and perhaps in a colour. -/
abbrev Painter := (bold : Bool) → (colour? : Option Colour) → String → String

inductive Severity where
  | error
  | warning
  | style
  | information
  deriving DecidableEq, Inhabited

namespace Severity

def name : Severity → String
  | error => "error"
  | warning => "warning"
  | style => "style"
  | information => "information"

def colour : Severity → Colour
  | error => .red
  | warning => .yellow
  | style => .cyan
  | information => .white

def all : List Severity := [error, warning, style, information]

/-- The severity of a name, read without the white space around it and in either case. Other
names are warnings. -/
def ofName (s : String) : Severity :=
  (all.find? fun x => Text.isName x.name s).getD warning

end Severity

end FlowLint
