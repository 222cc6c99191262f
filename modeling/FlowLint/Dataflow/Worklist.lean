import FlowLint.Text.Blank
import FlowLint.Error

/-! # Worklists

A worklist is a set of pending members. The strategy decides which one is taken next: the first
that came, the last that came, or the one of least rank. `next?_mem` and `next?_eq_none_iff` say
that a member is taken whenever there is one.
-/
namespace FlowLint

inductive Strategy where
  | fifo
  | lifo
  /-- By rank, which is the reverse post-order of a graph. -/
  | rpo
  deriving DecidableEq, Inhabited

namespace Strategy

def name : Strategy → String
  | fifo => "fifo"
  | lifo => "lifo"
  | rpo => "rpo"

def all : List Strategy := [fifo, lifo, rpo]

/-- The strategy of a name, read without the white space around it and in either case. A text that
is no string names none. -/
def ofName (s : CodeText) : Except Error Strategy :=
  match all.find? fun x => s.toString?.any (Text.isName x.name) with
  | some x => .ok x
  | none => .error (.unknownStrategy s (all.map name))

end Strategy

/-- Pending members in the order in which they came. -/
structure Worklist (α : Type) where
  strategy : Strategy
  rank : α → Nat
  members : List α

namespace Worklist

variable {α : Type} [DecidableEq α]

def push (w : Worklist α) (a : α) : Worklist α :=
  if a ∈ w.members then w else { w with members := w.members ++ [a] }

def pushAll (w : Worklist α) (xs : List α) : Worklist α := xs.foldl push w

/-- The first of the members with the least rank. -/
def least (rank : α → Nat) : (a : α) → List α → α
  | a, [] => a
  | a, b :: rest => least rank (if rank b < rank a then b else a) rest

def next? (w : Worklist α) : Option α :=
  match w.strategy, w.members with
  | _, [] => none
  | .fifo, a :: _ => some a
  | .lifo, a :: rest => some ((a :: rest).getLast (by simp))
  | .rpo, a :: rest => some (least w.rank a rest)

def pop? (w : Worklist α) : Option (α × Worklist α) :=
  w.next?.map fun a => (a, { w with members := w.members.erase a })

def isEmpty (w : Worklist α) : Bool := w.members.isEmpty

theorem mem_push {w : Worklist α} {a b : α} :
    b ∈ (w.push a).members ↔ b ∈ w.members ∨ b = a := by
  rw [push]
  split
  · next h =>
    constructor
    · exact .inl
    · rintro (h' | rfl)
      · exact h'
      · exact h
  · simp

omit [DecidableEq α] in
theorem least_mem (rank : α → Nat) (a : α) (rest : List α) : least rank a rest ∈ a :: rest := by
  induction rest generalizing a with
  | nil => simp [least]
  | cons b rest ih =>
    have h := ih (if rank b < rank a then b else a)
    rw [least]
    split at h <;> simp only [List.mem_cons] at h ⊢ <;> grind

omit [DecidableEq α] in
theorem next?_mem {w : Worklist α} {a : α} (h : w.next? = some a) : a ∈ w.members := by
  rw [next?] at h
  split at h
  · cases h
  · next hm => cases h; simp [hm]
  · next hm => cases h; rw [hm]; exact List.getLast_mem _
  · next hm => cases h; rw [hm]; exact least_mem _ _ _

omit [DecidableEq α] in
theorem next?_eq_none_iff {w : Worklist α} : w.next? = none ↔ w.members = [] := by
  rw [next?]
  split <;> simp_all

end Worklist

end FlowLint
