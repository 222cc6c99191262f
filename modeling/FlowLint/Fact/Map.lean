/-! # Map facts

A map fact binds keys to values and gives every other key its default. Entries keep the order in
which their keys came. Changes are reported with the value's own notion of sameness, and a key
that is not bound counts as bound to null. `find?_remove` and `find?_update` say what the two
changes do to look-up.
-/
namespace FlowLint

class FactValue (ν : Type) where
  same : ν → ν → Bool
  isNull : ν → Bool

/-- A finite map with a default for the keys that it does not bind. -/
structure FactMap (κ ν : Type) (default : ν) where
  entries : List (κ × ν)

namespace FactMap

variable {κ ν : Type} [BEq κ] [FactValue ν] {d e : ν}

def empty : FactMap κ ν d := ⟨[]⟩

instance : Inhabited (FactMap κ ν d) := ⟨empty⟩

def find? (f : FactMap κ ν d) (k : κ) : Option ν := f.entries.lookup k

def get (f : FactMap κ ν d) (k : κ) : ν := (f.find? k).getD d

def contains (f : FactMap κ ν d) (k : κ) : Bool := (f.find? k).isSome

def keys (f : FactMap κ ν d) : List κ := f.entries.map (·.1)

def size (f : FactMap κ ν d) : Nat := f.entries.length

/-- Binds a key in a list of entries. A key that is bound keeps its place. -/
def bind (k : κ) (v : ν) : List (κ × ν) → List (κ × ν)
  | [] => [(k, v)]
  | (k', v') :: rest => if k' == k then (k', v) :: rest else (k', v') :: bind k v rest

def remove (f : FactMap κ ν d) (k : κ) : FactMap κ ν d × Bool :=
  match f.find? k with
  | none => (f, false)
  | some v => (⟨f.entries.filter fun b => !(b.1 == k)⟩, !FactValue.isNull v)

/-- Gives a key a value, and whether the key had another one. A key gets the default by being
removed. -/
def update (f : FactMap κ ν d) (k : κ) (v : ν) : FactMap κ ν d × Bool :=
  if FactValue.same v d then f.remove k
  else
    (⟨bind k v f.entries⟩,
      match f.find? k with
      | none => !FactValue.isNull v
      | some old => !FactValue.same old v)

def sameEntries (f : FactMap κ ν d) (g : FactMap κ ν e) : Bool :=
  f.size == g.size && f.entries.all fun b =>
    match g.find? b.1 with
    | some v => FactValue.same b.2 v
    | none => false

/-- The entries of another fact, with the default of the first one, and whether they differ. -/
def replaceWith (f : FactMap κ ν d) (g : FactMap κ ν e) : FactMap κ ν d × Bool :=
  (⟨g.entries⟩, !f.sameEntries g)

def same (f : FactMap κ ν d) (g : FactMap κ ν e) : Bool :=
  FactValue.same d e && f.sameEntries g

def clear (_ : FactMap κ ν d) : FactMap κ ν d := empty

/-- A fact with the given values. A later value of a key takes the place of an earlier one. -/
def ofList (bindings : List (κ × ν)) : FactMap κ ν d :=
  (bindings.foldl (fun es b => bind b.1 b.2 es) []).foldl (fun f b => (f.update b.1 b.2).1) empty

def text (key : κ → String) (value : ν → String) (f : FactMap κ ν d) : String :=
  "\x7b" ++ ", ".intercalate (f.entries.map fun b => key b.1 ++ "=" ++ value b.2) ++ "\x7d"

section

variable [LawfulBEq κ]

omit [FactValue ν] in
theorem lookup_bind (k k' : κ) (v : ν) (es : List (κ × ν)) :
    (bind k v es).lookup k' = if k' == k then some v else es.lookup k' := by
  induction es with
  | nil => simp [bind, List.lookup_cons]; split <;> simp_all
  | cons b rest ih =>
    obtain ⟨k₀, v₀⟩ := b
    by_cases h : k₀ == k
    · have := eq_of_beq h; subst this
      simp only [bind, h, ↓reduceIte, List.lookup_cons]
      by_cases h' : k' == k₀ <;> simp [h']
    · simp only [bind, h, List.lookup_cons, Bool.false_eq_true, ↓reduceIte, ih]
      by_cases h' : k' == k₀
      · have := eq_of_beq h'; subst this
        simp [h]
      · simp [h']

omit [FactValue ν] in
theorem lookup_filter_ne (k k' : κ) (es : List (κ × ν)) :
    (es.filter fun b => !(b.1 == k)).lookup k' = if k' == k then none else es.lookup k' := by
  induction es with
  | nil => simp
  | cons b rest ih =>
    obtain ⟨k₀, v₀⟩ := b
    by_cases h : k₀ == k
    · have := eq_of_beq h; subst this
      simp only [List.filter_cons, h, Bool.not_true, Bool.false_eq_true, ↓reduceIte, ih,
        List.lookup_cons]
      by_cases h' : k' == k₀ <;> simp [h']
    · simp only [List.filter_cons, h, Bool.not_false, ↓reduceIte, List.lookup_cons, ih]
      by_cases h' : k' == k₀
      · have := eq_of_beq h'; subst this
        simp [h]
      · simp [h']

theorem find?_remove (f : FactMap κ ν d) (k k' : κ) :
    (f.remove k).1.find? k' = if k' == k then none else f.find? k' := by
  rw [remove]
  split
  · next h =>
    by_cases h' : k' == k
    · have := eq_of_beq h'; subst this; simp [h]
    · simp [h']
  · exact lookup_filter_ne k k' f.entries

theorem find?_update (f : FactMap κ ν d) (k k' : κ) (v : ν) :
    (f.update k v).1.find? k' =
      if k' == k then (if FactValue.same v d then none else some v) else f.find? k' := by
  rw [update]
  split
  · rw [find?_remove]
  · exact lookup_bind k k' v f.entries

end

end FactMap

end FlowLint
