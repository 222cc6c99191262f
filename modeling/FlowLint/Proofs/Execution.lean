import FlowLint.Graph.Node
import FlowLint.Proofs.Words
import Mathlib.Logic.Relation

/-! # Runs of a method over words

The variables of a run hold 32-bit words. A run moves between positions of the body; the graph plays
no part in it. What stands outside the model (allocations, casts, accesses, calls and applications
without a meaning) yields any word at all, whatever its operands, or stops the run.
-/
namespace FlowLint

/-- An expression that no rule of arithmetic says the value of. -/
def Expr.isOpaque : Expr → Bool
  | .lit _ | .var _ | .bin .. => false
  | _ => true

/-- The words that variables hold, none for one that has not been assigned. -/
abbrev WordStore := Var → Option (BitVec 32)

namespace WordStore

/-- The store with the word of a variable replaced. Other places are not modelled. -/
def put (σ : WordStore) (place : Option LValue) (w : BitVec 32) : WordStore :=
  match place with
  | some (.var x) => fun y => if y = x then some w else σ y
  | _ => σ

variable (σ : WordStore) (w : BitVec 32)

theorem put_var (x : Var) : σ.put (some (.var x)) w x = some w := if_pos rfl

theorem put_of_ne {place : Option LValue} {y : Var} (h : place ≠ some (.var y)) :
    σ.put place w y = σ y := by
  rcases place with _ | ⟨x | _ | _⟩
  case some.var =>
    refine if_neg fun hy => h ?_
    rw [hy]
  all_goals rfl

/-- The stores that a method may start in: just its parameters have words. -/
def Initial (m : Method) (σ : WordStore) : Prop := ∀ x, (σ x).isSome = true ↔ x ∈ m.params

end WordStore

/-- The words that an expression may have. It has none where a division by zero or a variable
without a word stops the run. -/
inductive Yields (σ : WordStore) : Expr → BitVec 32 → Prop
  | lit (n : Int) : Yields σ (.lit n) (BitVec.ofInt 32 n)
  | var {x : Var} {w : BitVec 32} (h : σ x = some w) : Yields σ (.var x) w
  | bin {op : BinOp} {l r : Expr} {a b : BitVec 32} (hl : Yields σ l a) (hr : Yields σ r b)
    (hop : op.traps = true → b ≠ 0) : Yields σ (.bin op l r) (op.onBits a b)
  | any {e : Expr} (h : e.isOpaque = true) (w : BitVec 32) : Yields σ e w

/-- Where an action at a position may lead, and the store it leaves. Behind the last statement the
run is over, and so it is after a return. -/
inductive Takes (size i : Nat) (σ : WordStore) : Action Nat → Nat → WordStore → Prop
  | nop (label : String) : Takes size i σ (.nop label) (i + 1) σ
  | define {a : Action Nat} {place : Option LValue} {e : Expr} {w : BitVec 32}
    (hd : a.definition? = some (place, e)) (hy : Yields σ e w) :
    Takes size i σ a (i + 1) (σ.put place w)
  | taken {c : Expr} {t : Nat} (hy : Yields σ c 1) : Takes size i σ (.branch c (some t)) t σ
  | notTaken {c : Expr} {t : Option Nat} (hy : Yields σ c 0) :
    Takes size i σ (.branch c t) (i + 1) σ
  | jump (t : Nat) : Takes size i σ (.goto (some t)) t σ
  | case {x : Var} {cases : List (Int × Option Nat)} {d : Option Nat} {n : Int} {t : Nat}
    (hx : σ x = some (BitVec.ofInt 32 n)) (hc : (n, some t) ∈ cases) :
    Takes size i σ (.switch x cases d) t σ
  | default {x : Var} {cases : List (Int × Option Nat)} {t : Nat} {w : BitVec 32}
    (hx : σ x = some w) (hc : ∀ c ∈ cases, BitVec.ofInt 32 c.1 ≠ w) :
    Takes size i σ (.switch x cases (some t)) t σ
  | leave {v : Option Expr} (hv : ∀ e ∈ v, ∃ w, Yields σ e w) : Takes size i σ (.ret v) size σ

theorem Takes.store_cases {size i j : Nat} {σ σ' : WordStore} {a : Action Nat}
    (h : Takes size i σ a j σ') :
    (∃ place e w, a.definition? = some (place, e) ∧ Yields σ e w ∧ σ' = σ.put place w) ∨
      a.definition? = none ∧ σ' = σ := by
  cases h with
  | define hd hy => exact .inl ⟨_, _, _, hd, hy, rfl⟩
  | _ => exact .inr ⟨rfl, rfl⟩

/-- A position of the body, or its length when the run is over, and a store. -/
structure Config where
  pc : Nat
  store : WordStore

namespace Method

def Step (m : Method) (c c' : Config) : Prop :=
  ∃ s, m.body[c.pc]? = some s ∧ Takes m.size c.pc c.store s.action c'.pc c'.store

def Reaches (m : Method) (c : Config) : Prop :=
  ∃ σ : WordStore, σ.Initial m ∧ Relation.ReflTransGen m.Step ⟨0, σ⟩ c

end Method

end FlowLint
