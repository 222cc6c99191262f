/-! # Texts of code points

A JSON string may escape half of a surrogate pair. Such a half is no character, so a text that may
hold one is a list of code points. Every string is such a text, and `toString?_ofString` says that
it is still found in it.
-/
namespace FlowLint

/-- A character, or a surrogate that stands alone. -/
inductive CodePoint where
  | char (c : Char)
  /-- The surrogate `0xd800 + offset`. -/
  | surrogate (offset : Fin 0x800)
  deriving DecidableEq, Inhabited

namespace CodePoint

def number : CodePoint → Nat
  | char c => c.toNat
  | surrogate offset => 0xd800 + offset

def char? : CodePoint → Option Char
  | char c => some c
  | surrogate _ => none

/-- The code point of a 16-bit unit that is no part of a pair. -/
def ofUnit (n : Nat) : CodePoint :=
  if h : 0xd800 ≤ n ∧ n < 0xe000 then surrogate ⟨n - 0xd800, by omega⟩ else char (Char.ofNat n)

end CodePoint

/-- A text whose surrogates may stand alone. -/
structure CodeText where
  points : List CodePoint
  deriving DecidableEq, Inhabited

namespace CodeText

def ofString (s : String) : CodeText := ⟨s.toList.map .char⟩

instance : Coe String CodeText := ⟨ofString⟩

instance : Append CodeText := ⟨fun s t => ⟨s.points ++ t.points⟩⟩

def isEmpty (s : CodeText) : Bool := s.points.isEmpty

def intercalate (separator : CodeText) (texts : List CodeText) : CodeText :=
  ⟨separator.points.intercalate (texts.map points)⟩

def toString? (s : CodeText) : Option String := (s.points.mapM CodePoint.char?).map String.ofList

/-- Code points in order by their numbers, the first that differ deciding. -/
def leqPoints : (s t : List CodePoint) → Bool
  | [], _ => true
  | _ :: _, [] => false
  | a :: s, b :: t => a.number < b.number || (a.number == b.number && leqPoints s t)

def leq (s t : CodeText) : Bool := leqPoints s.points t.points

@[simp]
theorem toString?_ofString (s : String) : (ofString s).toString? = some s := by
  have h (cs : List Char) : (cs.map CodePoint.char).mapM CodePoint.char? = some cs := by
    induction cs with
    | nil => rfl
    | cons c rest ih => simp [CodePoint.char?, ih]
  simp [toString?, ofString, h]

end CodeText

end FlowLint
