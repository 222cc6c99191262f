/-! # Words of 32 bits

A word is the integer it denotes as a signed number. Operations take integers and give the
signed number of the 32-bit result.
-/
namespace FlowLint.Word32

def count : Nat := 4294967296

/-- The signed number of the low 32 bits of an integer. -/
def wrap (n : Int) : Int := n.bmod count

/-- The low 32 bits of an integer as an unsigned number. -/
def bits (n : Int) : Nat := (n % count).toNat

/-- A shift amount: the low five bits of an integer. -/
def amount (n : Int) : Nat := (n % 32).toNat

/-- Division truncates; the least number by minus one is itself. -/
def div (a b : Int) : Int := wrap (a.tdiv b)

/-- A remainder has the sign of the dividend. -/
def rem (a b : Int) : Int := wrap (a.tmod b)

def land (a b : Int) : Int := wrap (bits a &&& bits b)

def lor (a b : Int) : Int := wrap (bits a ||| bits b)

def lxor (a b : Int) : Int := wrap (bits a ^^^ bits b)

def scale (b : Int) : Nat := Nat.pow 2 (amount b)

def shiftLeft (a b : Int) : Int := wrap (a * scale b)

/-- The sign is shifted in. -/
def shiftRight (a b : Int) : Int := wrap a / scale b

/-- Zeros are shifted in. -/
def shiftRightZero (a b : Int) : Int := wrap (bits a / scale b)

end FlowLint.Word32
