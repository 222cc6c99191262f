/-! # White space and letter case of names

Names of options are read without the white space around them and in either case.
-/
namespace FlowLint.Text

/-- The characters of Unicode's white space and the four ASCII separators. -/
def isBlank (c : Char) : Bool :=
  let n := c.toNat
  (0x9 ≤ n && n ≤ 0xd) || (0x1c ≤ n && n ≤ 0x20) || n == 0x85 || n == 0xa0 || n == 0x1680 ||
    (0x2000 ≤ n && n ≤ 0x200a) || n == 0x2028 || n == 0x2029 || n == 0x202f || n == 0x205f ||
    n == 0x3000

def strip (s : List Char) : List Char :=
  ((s.dropWhile isBlank).reverse.dropWhile isBlank).reverse

/-- Whether a text is a given lower-case name up to white space around it and letter case.

Only ASCII letters are lowered. Beyond ASCII just the Kelvin sign lowers to a single ASCII
letter, `k`, so for names without a `k` this agrees with full Unicode lowering. -/
def isName (name s : String) : Bool :=
  (strip s.toList).map Char.toLower == name.toList

end FlowLint.Text
