import FlowLint.Text.CodeText
import FlowLint.Text.Printable

/-! # Quoted literals

A text is quoted with single quotes, or with double quotes when it holds a single quote and no
double one. The backslash and the quote in use are escaped; line feed, carriage return and tab
have short escapes; other hidden characters and surrogates are written by code point.
-/
namespace FlowLint.Text

def hexDigit (n : Nat) : Char :=
  Char.ofNat (if n < 10 then 0x30 + n else 0x57 + n)

def hexDigits : (width n : Nat) → List Char
  | 0, _ => []
  | width + 1, n => hexDigits width (n / 16) ++ [hexDigit (n % 16)]

def quoteFor (s : List CodePoint) : Char :=
  if s.contains (.char '\'') && !s.contains (.char '"') then '"' else '\''

/-- A character inside a literal enclosed by `quote`. -/
def escapeChar (quote c : Char) : List Char :=
  if c = quote || c = '\\' then ['\\', c]
  else if c = '\n' then ['\\', 'n']
  else if c = '\r' then ['\\', 'r']
  else if c = '\t' then ['\\', 't']
  else if isPrintable c then [c]
  else if c.toNat < 0x100 then '\\' :: 'x' :: hexDigits 2 c.toNat
  else if c.toNat < 0x10000 then '\\' :: 'u' :: hexDigits 4 c.toNat
  else '\\' :: 'U' :: hexDigits 8 c.toNat

def escapePoint (quote : Char) : CodePoint → List Char
  | .char c => escapeChar quote c
  | .surrogate offset => '\\' :: 'u' :: hexDigits 4 (0xd800 + offset)

def quotePoints (s : List CodePoint) : List Char :=
  let q := quoteFor s
  q :: s.flatMap (escapePoint q) ++ [q]

def quote (s : CodeText) : String := String.ofList (quotePoints s.points)

end FlowLint.Text
