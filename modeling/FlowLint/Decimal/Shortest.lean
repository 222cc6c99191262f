import FlowLint.Decimal.Binary64

/-! # Shortest decimals

The text of a floating-point number has the fewest digits that read back as the number, and of
those the digits nearest to it. A layout says how such digits are written.
-/
namespace FlowLint.Decimal

/-- The decimal `digits · 10 ^ exponent`. -/
structure Scaled where
  digits : Nat
  exponent : Int
  deriving Inhabited

def Scaled.value (d : Scaled) : Rat := d.digits * 10 ^ d.exponent

/-- Whether a decimal reads back as `m · 2 ^ e`: it lies between the midpoints to the two
neighbours, which themselves read back when the mantissa is even. -/
def readsBack (m : Nat) (e : Int) (d : Scaled) : Bool :=
  let below : Rat := if m = Binary64.leastNormal ∧ Binary64.minExponent < e then 1 / 4 else 1 / 2
  let low : Rat := (m - below) * 2 ^ e
  let high : Rat := (m + 1 / 2) * 2 ^ e
  if m % 2 = 0 then low ≤ d.value && d.value ≤ high else low < d.value && d.value < high

/-- The number `p` of digits before the point: `10 ^ (p - 1) ≤ x < 10 ^ p` for a positive `x`. -/
def pointOf (x : Rat) : Int :=
  let guess : Int :=
    (Nat.toDigits 10 x.num.toNat).length - (Nat.toDigits 10 x.den).length
  if x < 10 ^ guess then guess else guess + 1

/-- The neighbour of a number on the grid of multiples of `10 ^ k` that reads back as the number,
the nearer one if both do and the even one of two equally near. -/
def onGrid (m : Nat) (e k : Int) : Option Scaled :=
  let x : Rat := m * 2 ^ e / 10 ^ k
  let low : Scaled := ⟨x.floor.toNat, k⟩
  let high : Scaled := ⟨x.floor.toNat + 1, k⟩
  match readsBack m e low, readsBack m e high with
  | false, false => none
  | true, false => some low
  | false, true => some high
  | true, true => if Binary64.roundEven x = x.floor then some low else some high

/-- The shortest decimal that reads back as `m · 2 ^ e`. Seventeen digits always do. -/
def shortest (m : Nat) (e : Int) : Scaled :=
  let point := pointOf (m * 2 ^ e)
  ((List.range 17).findSome? fun n : Nat => onGrid m e (point - (n + 1))).getD ⟨m, e⟩

structure Layout where
  /-- A number is written with an exponent when it has this many digits before the point or
  fewer, zeros after the point counting as negative. -/
  mostNegativePoint : Int
  /-- A number is written with an exponent when it has more digits before the point. -/
  mostPoint : Int
  exponentWidth : Nat
  nan : String
  infinity : String

/-- Digits with a point after the first `point` of them, zeros filling the gap and at least one
digit standing on each side. -/
def positional (digits : List Char) (point : Int) : List Char :=
  let zeros (n : Int) := List.replicate n.toNat '0'
  let whole := digits.take point.toNat ++ zeros (point - digits.length)
  let part := zeros (-point) ++ digits.drop point.toNat
  (if whole.isEmpty then ['0'] else whole) ++ '.' :: (if part.isEmpty then ['0'] else part)

/-- Digits with a point after the first, which is left out when no digit follows, and an
exponent. -/
def scientific (width : Nat) (digits : List Char) (exponent : Int) : List Char :=
  let power := Nat.toDigits 10 exponent.natAbs
  digits.take 1 ++ (if digits.length ≤ 1 then [] else '.' :: digits.drop 1) ++
    'e' :: (if exponent < 0 then '-' else '+') ::
    (List.replicate (width - power.length) '0' ++ power)

def Layout.text (l : Layout) : Binary64 → String
  | .nan => l.nan
  | .infinite negative => (if negative then "-" else "") ++ l.infinity
  | .finite negative m e =>
    let body :=
      if m = 0 then ['0', '.', '0']
      else
        let d := shortest m e
        let digits := Nat.toDigits 10 d.digits
        let point := digits.length + d.exponent
        let digits := (digits.reverse.dropWhile (· == '0')).reverse
        if l.mostNegativePoint < point && point ≤ l.mostPoint then positional digits point
        else scientific l.exponentWidth digits (point - 1)
    String.ofList (if negative then '-' :: body else body)

end FlowLint.Decimal
