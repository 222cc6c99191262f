import FlowLint.Json.Basic

/-! # Reading JSON texts

A scanner works on the characters that are left and returns what it leaves. A fault names the
characters left where it was found, so that its place is the length of the text less that number.
The numbers `NaN`, `Infinity` and `-Infinity` are accepted.
-/
namespace FlowLint.Json

inductive Fault where
  | byteOrderMark
  | noValue
  | noComma
  | noColon
  | noName
  | extraData
  | openString
  | controlCharacter
  | badEscape
  | badUnicode
  deriving DecidableEq

def Fault.message : Fault → String
  | byteOrderMark => "Unexpected UTF-8 BOM (decode using utf-8-sig)"
  | noValue => "Expecting value"
  | noComma => "Expecting ',' delimiter"
  | noColon => "Expecting ':' delimiter"
  | noName => "Expecting property name enclosed in double quotes"
  | extraData => "Extra data"
  | openString => "Unterminated string starting at"
  | controlCharacter => "Invalid control character at"
  | badEscape => "Invalid \\escape"
  | badUnicode => "Invalid \\uXXXX escape"

/-- A fault and the number of characters from its place to the end. -/
structure Stop where
  fault : Fault
  left : Nat
  deriving DecidableEq

/-- A scanned value and the characters it leaves. -/
abbrev Scan (α : Type) := Except Stop (α × List Char)

def stop {α : Type} (fault : Fault) (rest : List Char) : Except Stop α :=
  .error ⟨fault, rest.length⟩

def isSpace (c : Char) : Bool := c = ' ' || c = '\t' || c = '\n' || c = '\r'

def skipSpace (cs : List Char) : List Char := cs.dropWhile isSpace

def skipWord? : (word cs : List Char) → Option (List Char)
  | [], cs => some cs
  | w :: word, c :: cs => if w = c then skipWord? word cs else none
  | _ :: _, [] => none

def hexValue? (c : Char) : Option Nat :=
  let n := c.toNat
  if 0x30 ≤ n && n ≤ 0x39 then some (n - 0x30)
  else if 0x61 ≤ n && n ≤ 0x66 then some (n - 0x57)
  else if 0x41 ≤ n && n ≤ 0x46 then some (n - 0x37)
  else none

def hexUnit? : List Char → Option Nat
  | [a, b, c, d] => do
    let a ← hexValue? a
    let b ← hexValue? b
    let c ← hexValue? c
    let d ← hexValue? d
    return ((a * 16 + b) * 16 + c) * 16 + d
  | _ => none

/-- The unit after `u` in an escape. A text that ends with its four digits is refused too. -/
def scanUnit (cs : List Char) : Except Stop Nat :=
  match hexUnit? (cs.take 4) with
  | some n => if cs.length ≤ 4 then stop .badUnicode ('u' :: cs) else .ok n
  | none => stop .badUnicode ('u' :: cs)

def joinUnits (high low : Nat) : Char :=
  Char.ofNat (0x10000 + (high - 0xd800) * 0x400 + (low - 0xdc00))

/-- The code point of an escape that starts with `u`, and how many characters after the `u` it
takes. A surrogate that no second one follows stands alone. -/
def scanUnicode (cs : List Char) : Except Stop (CodePoint × Nat) := do
  let high ← scanUnit cs
  if 0xd800 ≤ high && high < 0xdc00 && 10 < cs.length then
    match cs.drop 4 with
    | '\\' :: 'u' :: more =>
      match hexUnit? (more.take 4) with
      | none => stop .badUnicode ('u' :: more)
      | some low =>
        if 0xdc00 ≤ low && low < 0xe000 then return (.char (joinUnits high low), 10)
        else return (.ofUnit high, 4)
    | _ => return (.ofUnit high, 4)
  else return (.ofUnit high, 4)

def shortEscape? : Char → Option Char
  | '"' => some '"'
  | '\\' => some '\\'
  | '/' => some '/'
  | 'b' => some '\x08'
  | 'f' => some '\x0c'
  | 'n' => some '\n'
  | 'r' => some '\r'
  | 't' => some '\t'
  | _ => none

/-- The rest of a string after its opening quote; `opening` characters were left at the quote. -/
def scanString (opening : Nat) (read : List CodePoint) (cs : List Char) : Scan CodeText :=
  match cs with
  | [] => .error ⟨.openString, opening⟩
  | '"' :: rest => .ok (⟨read.reverse⟩, rest)
  | '\\' :: [] => .error ⟨.openString, opening⟩
  | '\\' :: c :: rest =>
    if c = 'u' then
      match scanUnicode rest with
      | .error e => .error e
      | .ok (x, n) => scanString opening (x :: read) (rest.drop n)
    else
      match shortEscape? c with
      | some x => scanString opening (.char x :: read) rest
      | none => stop .badEscape ('\\' :: c :: rest)
  | c :: rest =>
    if c.toNat < 0x20 then stop .controlCharacter (c :: rest)
    else scanString opening (.char c :: read) rest
termination_by cs.length
decreasing_by all_goals simp +arith [List.length_drop]

def natOfDigits (cs : List Char) : Nat :=
  cs.foldl (fun n c => n * 10 + (c.toNat - 0x30)) 0

def fraction : List Char → List Char × List Char
  | '.' :: rest =>
    if (rest.takeWhile Char.isDigit).isEmpty then ([], '.' :: rest)
    else (rest.takeWhile Char.isDigit, rest.dropWhile Char.isDigit)
  | rest => ([], rest)

def exponent? (cs : List Char) : Option (Int × List Char) :=
  let signed (sign : Int) (rest : List Char) : Option (Int × List Char) :=
    if (rest.takeWhile Char.isDigit).isEmpty then none
    else some (sign * natOfDigits (rest.takeWhile Char.isDigit), rest.dropWhile Char.isDigit)
  match cs with
  | e :: rest =>
    if e = 'e' || e = 'E' then
      match rest with
      | '-' :: rest => signed (-1) rest
      | '+' :: rest => signed 1 rest
      | rest => signed 1 rest
    else none
  | [] => none

/-- A number after its sign: the longest text that is one. -/
def scanNumber (negative : Bool) (start cs : List Char) : Scan Json :=
  let whole := if cs.head? = some '0' then ['0'] else cs.takeWhile Char.isDigit
  let (part, rest) := fraction (cs.drop whole.length)
  if whole.isEmpty then stop .noValue start
  else
    match exponent? rest with
    | some (e, rest) =>
      .ok (.real (.ofDecimal negative (natOfDigits (whole ++ part)) (e - part.length)), rest)
    | none =>
      if part.isEmpty then
        let n : Int := natOfDigits whole
        .ok (.int (if negative then -n else n), rest)
      else .ok (.real (.ofDecimal negative (natOfDigits (whole ++ part)) (-part.length)), rest)

def scanAtom (cs : List Char) : Scan Json :=
  match skipWord? "null".toList cs with
  | some rest => .ok (.null, rest)
  | none =>
  match skipWord? "true".toList cs with
  | some rest => .ok (.bool true, rest)
  | none =>
  match skipWord? "false".toList cs with
  | some rest => .ok (.bool false, rest)
  | none =>
  match skipWord? "NaN".toList cs with
  | some rest => .ok (.real .nan, rest)
  | none =>
  match skipWord? "Infinity".toList cs with
  | some rest => .ok (.real (.infinite false), rest)
  | none =>
  match skipWord? "-Infinity".toList cs with
  | some rest => .ok (.real (.infinite true), rest)
  | none =>
  match cs with
  | '-' :: rest => scanNumber true cs rest
  | _ => scanNumber false cs cs

mutual

/-- A value. Each call passes on less fuel and takes a character at every second step, so twice
the length of the text is enough. -/
def scanValue : (fuel : Nat) → List Char → Scan Json
  | 0, cs => stop .noValue cs
  | fuel + 1, cs =>
    match cs with
    | '"' :: rest => (scanString cs.length [] rest).map fun r => (.str r.1, r.2)
    | '[' :: rest =>
      match skipSpace rest with
      | ']' :: rest => .ok (.arr [], rest)
      | rest => (scanItems fuel rest).map fun r => (.arr r.1, r.2)
    | '\x7b' :: rest =>
      match skipSpace rest with
      | '\x7d' :: rest => .ok (.obj [], rest)
      | rest => (scanMembers fuel [] rest).map fun r => (.obj r.1, r.2)
    | _ => scanAtom cs

/-- The items of an array from its next item on. -/
def scanItems : (fuel : Nat) → List Char → Scan (List Json)
  | 0, cs => stop .noValue cs
  | fuel + 1, cs =>
    match scanValue fuel cs with
    | .error e => .error e
    | .ok (v, rest) =>
      match skipSpace rest with
      | ']' :: rest => .ok ([v], rest)
      | ',' :: rest => (scanItems fuel (skipSpace rest)).map fun r => (v :: r.1, r.2)
      | rest => stop .noComma rest

/-- The members of an object from its next key on, after those read already. -/
def scanMembers : (fuel : Nat) → (read : List (CodeText × Json)) → List Char →
    Scan (List (CodeText × Json))
  | 0, _, cs => stop .noName cs
  | fuel + 1, read, cs =>
    match cs with
    | '"' :: rest =>
      match scanString cs.length [] rest with
      | .error e => .error e
      | .ok (key, rest) =>
        match skipSpace rest with
        | ':' :: rest =>
          match scanValue fuel (skipSpace rest) with
          | .error e => .error e
          | .ok (v, rest) =>
            match skipSpace rest with
            | '\x7d' :: rest => .ok (insertMember key v read, rest)
            | ',' :: rest => scanMembers fuel (insertMember key v read) (skipSpace rest)
            | rest => stop .noComma rest
        | rest => stop .noColon rest
    | _ => stop .noName cs

end

def scanText (cs : List Char) : Except Stop Json :=
  if cs.head? = some '\ufeff' then stop .byteOrderMark cs
  else
    match scanValue (2 * cs.length + 2) (skipSpace cs) with
    | .error e => .error e
    | .ok (v, rest) => if (skipSpace rest).isEmpty then .ok v else stop .extraData (skipSpace rest)

structure Located where
  fault : Fault
  line : Nat
  column : Nat
  deriving DecidableEq

/-- Places a fault in its text. A column is counted in characters. -/
def Stop.locate (s : Stop) (cs : List Char) : Located :=
  let before := cs.take (cs.length - s.left)
  ⟨s.fault, before.count '\n' + 1, (before.reverse.takeWhile (· ≠ '\n')).length + 1⟩

def parse (s : String) : Except Located Json :=
  match scanText s.toList with
  | .ok v => .ok v
  | .error e => .error (e.locate s.toList)

end FlowLint.Json
