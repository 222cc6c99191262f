import FlowLint.Json.Basic
import FlowLint.Decimal.Shortest
import FlowLint.Text.Quoted

/-! # JSON texts

A text is written in ASCII, with `, ` and `: ` as separators or, indented, with one item a line.
-/
namespace FlowLint.Json

/-- JSON texts write an exponent from `1e+16` on and below `0.0001`. -/
def numberLayout : Decimal.Layout := ⟨-4, 16, 2, "NaN", "Infinity"⟩

def escapeUnit (n : Nat) : List Char := '\\' :: 'u' :: Text.hexDigits 4 n

/-- A character inside a JSON string. A character beyond the first plane is a surrogate pair. -/
def escapeChar (c : Char) : List Char :=
  if c = '"' || c = '\\' then ['\\', c]
  else if c = '\n' then ['\\', 'n']
  else if c = '\r' then ['\\', 'r']
  else if c = '\t' then ['\\', 't']
  else if c = '\x08' then ['\\', 'b']
  else if c = '\x0c' then ['\\', 'f']
  else if 0x20 ≤ c.toNat && c.toNat < 0x7f then [c]
  else if c.toNat < 0x10000 then escapeUnit c.toNat
  else
    let n := c.toNat - 0x10000
    escapeUnit (0xd800 + n / 0x400) ++ escapeUnit (0xdc00 + n % 0x400)

def escapePoint : CodePoint → List Char
  | .char c => escapeChar c
  | .surrogate offset => escapeUnit (0xd800 + offset)

def encodeString (s : CodeText) : String :=
  String.ofList ('"' :: s.points.flatMap escapePoint ++ ['"'])

mutual

def compact : Json → String
  | null => "null"
  | bool b => if b then "true" else "false"
  | int n => toString n
  | real x => numberLayout.text x
  | str s => encodeString s
  | arr items => "[" ++ ", ".intercalate (compactItems items) ++ "]"
  | obj members => "\x7b" ++ ", ".intercalate (compactMembers members) ++ "\x7d"

def compactItems : List Json → List String
  | [] => []
  | v :: rest => v.compact :: compactItems rest

def compactMembers : List (CodeText × Json) → List String
  | [] => []
  | (k, v) :: rest => (encodeString k ++ ": " ++ v.compact) :: compactMembers rest

end

/-- Items between brackets, one a line, `depth` steps of two blanks inside. -/
def block (opening closing : String) (depth : Nat) (items : List String) : String :=
  let line (depth : Nat) := "\n" ++ String.ofList (List.replicate (2 * depth) ' ')
  if items.isEmpty then opening ++ closing
  else
    opening ++ line (depth + 1) ++ ("," ++ line (depth + 1)).intercalate items ++
      line depth ++ closing

mutual

/-- A value with one item a line, two blanks a level. -/
def indented (depth : Nat) : Json → String
  | arr items => block "[" "]" depth (indentedItems (depth + 1) items)
  | obj members => block "\x7b" "\x7d" depth (indentedMembers (depth + 1) members)
  | v => v.compact

def indentedItems (depth : Nat) : List Json → List String
  | [] => []
  | v :: rest => v.indented depth :: indentedItems depth rest

def indentedMembers (depth : Nat) : List (CodeText × Json) → List String
  | [] => []
  | (k, v) :: rest =>
    (encodeString k ++ ": " ++ v.indented depth) :: indentedMembers depth rest

end

end FlowLint.Json
