import FlowLint.Plan.Entry

/-! # Plans in files

Which files there are is a matter of the host, and so is how much of a text it takes. All else that
loading a plan does is settled here.
-/
namespace FlowLint

/-- Whether a code point may stand in the name of a file. The surrogates from `0xdc80` to `0xdcff`
stand for bytes that are no text. -/
def CodePoint.isEncodable : CodePoint → Bool
  | .char _ => true
  | .surrogate offset => 0x480 ≤ offset.val && offset.val < 0x500

/-- A path in its normal form: without empty parts and without `.`, but with `..`. -/
structure Path where
  root : String
  parts : List CodeText

namespace Path

/-- Two slashes at the start stay two, any other number becomes one. -/
def rootOf (s : List CodePoint) : String :=
  match s with
  | .char '/' :: .char '/' :: .char '/' :: _ => "/"
  | .char '/' :: .char '/' :: _ => "//"
  | .char '/' :: _ => "/"
  | _ => ""

def splitSlashes : List CodePoint → List (List CodePoint)
  | [] => [[]]
  | p :: rest =>
    let parts := splitSlashes rest
    if p = .char '/' then [] :: parts else (p :: parts.headD []) :: parts.tail

def ofText (s : CodeText) : Path where
  root := rootOf s.points
  parts := ((splitSlashes s.points).map CodeText.mk).filter fun p =>
    p ≠ CodeText.ofString "" ∧ p ≠ CodeText.ofString "."

def text (p : Path) : CodeText :=
  if p.root.isEmpty && p.parts.isEmpty then "." else p.root ++ CodeText.intercalate "/" p.parts

/-- Why a text can be no path at all, whatever files there are. -/
def fault? (s : CodeText) : Option Error :=
  if s.points.all CodePoint.isEncodable then
    if s.points.contains (.char '\x00') then some .nullInPath else none
  else some .unencodablePath

end Path

/-- The system on which a plan is loaded. -/
structure Host where
  /-- The bytes of the file at a path. -/
  read : Path → Except FileFault ByteArray
  /-- Whether a JSON text is within the limits on digits in a row and on nesting. -/
  withinLimits : String → Bool

namespace Plan

/-- A text with every line end, be it one of two characters or a lone return, made a line feed. -/
def unifyLineEnds : List Char → List Char
  | [] => []
  | '\r' :: '\n' :: rest => '\n' :: unifyLineEnds rest
  | '\r' :: rest => '\n' :: unifyLineEnds rest
  | c :: rest => c :: unifyLineEnds rest

def withLineFeeds (s : String) : String := String.ofList (unifyLineEnds s.toList)

/-- The plan of a JSON file, which has to be UTF-8. -/
def load (host : Host) (path : CodeText) : Except Error Plan :=
  match Path.fault? path with
  | some e => .error e
  | none =>
    let p := Path.ofText path
    match host.read p with
    | .error e => .error (.unreadableFile p.text e)
    | .ok bytes =>
      match String.fromUTF8? bytes with
      | none => .error .undecodable
      | some s =>
        if host.withinLimits (withLineFeeds s) then
          match Json.parse (withLineFeeds s) with
          | .error e => .error (.malformedText p.text e)
          | .ok j => ofJson j
        else .error .overLimit

end Plan

end FlowLint
