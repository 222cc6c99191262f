/-! # Set facts

A set fact is a list of its elements, each once. Every operation is pinned down by what it does to
`contains`.
-/
namespace FlowLint

structure FactSet (α : Type) where
  elems : List α

namespace FactSet

variable {α : Type} [BEq α]

def empty : FactSet α := ⟨[]⟩

instance : Inhabited (FactSet α) := ⟨empty⟩

def contains (f : FactSet α) (a : α) : Bool := f.elems.contains a

def size (f : FactSet α) : Nat := f.elems.length

/-- The set with an element more, and whether it is new. -/
def add (f : FactSet α) (a : α) : FactSet α × Bool :=
  if f.contains a then (f, false) else (⟨f.elems ++ [a]⟩, true)

/-- The set with an element less, and whether it was there. -/
def remove (f : FactSet α) (a : α) : FactSet α × Bool :=
  if f.contains a then (⟨f.elems.filter fun b => !(b == a)⟩, true) else (f, false)

def addAll (f : FactSet α) (xs : List α) : FactSet α := xs.foldl (fun f a => (f.add a).1) f

def ofList (xs : List α) : FactSet α := empty.addAll xs

/-- The union of two sets, and whether the second adds an element to the first. -/
def union (f g : FactSet α) : FactSet α × Bool :=
  let u := f.addAll g.elems
  (u, u.size != f.size)

def subset (f g : FactSet α) : Bool := f.elems.all g.contains

def same (f g : FactSet α) : Bool := f.subset g && g.subset f

def replaceWith (f g : FactSet α) : FactSet α × Bool := (g, !f.same g)

def clear (_ : FactSet α) : FactSet α := empty

def text (elem : α → String) (f : FactSet α) : String :=
  "\x7b" ++ ", ".intercalate ((f.elems.map elem).mergeSort (· ≤ ·)) ++ "\x7d"

section

variable [LawfulBEq α]

theorem contains_add (f : FactSet α) (a b : α) :
    (f.add a).1.contains b = (f.contains b || b == a) := by
  rw [add]
  split
  · next h =>
    by_cases hb : b == a
    · have := eq_of_beq hb; subst this; simp [h]
    · simp [hb]
  · rw [Bool.eq_iff_iff]; simp [contains]

theorem contains_remove (f : FactSet α) (a b : α) :
    (f.remove a).1.contains b = (f.contains b && !(b == a)) := by
  rw [remove]
  split
  · rw [Bool.eq_iff_iff]; simp [contains]
  · next h =>
    by_cases hb : b == a
    · have := eq_of_beq hb; subst this; simp_all
    · simp [hb]

theorem contains_addAll (f : FactSet α) (xs : List α) (b : α) :
    (f.addAll xs).contains b = (f.contains b || xs.contains b) := by
  induction xs generalizing f with
  | nil => simp [addAll]
  | cons a rest ih =>
    have := ih (f.add a).1
    rw [addAll, List.foldl_cons]
    rw [addAll] at this
    rw [this, contains_add, List.contains_cons, Bool.or_assoc]

theorem contains_union (f g : FactSet α) (b : α) :
    (f.union g).1.contains b = (f.contains b || g.contains b) :=
  contains_addAll f g.elems b

end

end FactSet

end FlowLint
