import FlowLint.DeadCode
import FlowLint.Proofs.Machine
import Mathlib.Logic.Relation

/-! # Expressions without effects

An expression may be dropped unobserved exactly when nothing within it acts: then it has a value on
every machine and leaves the effects so far as they are, and otherwise there is a machine that it
stops. The outermost form decides that for literals, variables and applications of operators to
them. It does not for nested operands.
-/
namespace FlowLint

namespace Expr

/-- An expression is evaluated as a direct operand of another one. -/
inductive Operand : Expr → Expr → Prop
  | left (op : BinOp) (l r : Expr) : Operand l (.bin op l r)
  | right (op : BinOp) (l r : Expr) : Operand r (.bin op l r)
  | uninterpretedLeft (op : BinOp) (l r : Expr) : Operand l (.uninterpreted op l r)
  | uninterpretedRight (op : BinOp) (l r : Expr) : Operand r (.uninterpreted op l r)
  | length (ty : Ty) {e : Expr} {lengths : List Expr} (h : e ∈ lengths) : Operand e (.new ty lengths)
  | castValue (e : Expr) (ty : Ty) : Operand e (.cast e ty)
  | fieldBase (name : String) (x : Var) (owner : String) :
    Operand (.var x) (.field name (some x) owner)
  | elemBase (x : Var) (i : Expr) : Operand (.var x) (.elem x i)
  | elemIndex (x : Var) (i : Expr) : Operand i (.elem x i)
  | receiver (method : String) (args : List Expr) (x : Var) :
    Operand (.var x) (.call method args (some x))
  | argument (method : String) {e : Expr} {args : List Expr} (receiver : Option Var)
    (h : e ∈ args) : Operand e (.call method args receiver)

/-- An expression is another one or an operand of it at any depth. -/
def Within : Expr → Expr → Prop := Relation.ReflTransGen Operand

/-- The forms that may trap or ask something of the surroundings. -/
inductive Acts : Expr → Prop
  | new (ty : Ty) (lengths : List Expr) : Acts (.new ty lengths)
  | cast (e : Expr) (ty : Ty) : Acts (.cast e ty)
  | field (name : String) (base : Option Var) (owner : String) : Acts (.field name base owner)
  | elem (x : Var) (i : Expr) : Acts (.elem x i)
  | call (method : String) (args : List Expr) (receiver : Option Var) :
    Acts (.call method args receiver)
  | quotient (l r : Expr) : Acts (.bin .div l r)
  | remainder (l r : Expr) : Acts (.bin .rem l r)

/-- Nothing within the expression acts. -/
def Inert (e : Expr) : Prop := ∀ s : Expr, s.Within e → ¬s.Acts

def isAtom : Expr → Bool
  | lit _ | var _ => true
  | _ => false

/-- Whether an application has literals and variables for operands. -/
def isFlat : Expr → Bool
  | bin _ l r | uninterpreted _ l r => l.isAtom && r.isAtom
  | _ => true

variable {e a : Expr}

/-- The check looks at the outermost form only. -/
theorem isEffectFree_iff : e.isEffectFree = true ↔ ¬e.Acts := by
  constructor
  · intro h hacts
    cases hacts <;> cases h
  · intro h
    cases e with
    | lit | var | uninterpreted => rfl
    | new ty lengths => exact absurd (.new ty lengths) h
    | cast e ty => exact absurd (.cast e ty) h
    | field name base owner => exact absurd (.field name base owner) h
    | elem x i => exact absurd (.elem x i) h
    | call method args receiver => exact absurd (.call method args receiver) h
    | bin op l r =>
      cases op with
      | div => exact absurd (.quotient l r) h
      | rem => exact absurd (.remainder l r) h
      | _ => rfl

theorem Inert.operand (h : e.Inert) (ha : a.Operand e) : a.Inert := fun s hs => h s (hs.tail ha)

/-- An expression is inert if its own form does not act and its operands are inert. -/
theorem inert_iff : e.Inert ↔ ¬e.Acts ∧ ∀ a : Expr, a.Operand e → a.Inert := by
  constructor
  · intro h
    exact ⟨h e .refl, fun a ha => h.operand ha⟩
  · rintro ⟨hacts, hops⟩ s hs
    rcases hs.cases_tail with rfl | ⟨a, hsa, ha⟩
    · exact hacts
    · exact hops a ha s hsa

theorem inert_of_isAtom (h : e.isAtom = true) : e.Inert := by
  cases e with
  | lit | var => exact inert_iff.mpr ⟨nofun, nofun⟩
  | _ => cases h

theorem inert_iff_isEffectFree (hflat : e.isFlat = true) : e.Inert ↔ e.isEffectFree = true := by
  rw [isEffectFree_iff]
  constructor
  · intro h
    exact h e .refl
  · intro hacts
    refine inert_iff.mpr ⟨hacts, fun a ha => inert_of_isAtom ?_⟩
    cases ha with
    | left | uninterpretedLeft => exact (Bool.and_eq_true_iff.mp hflat).1
    | right | uninterpretedRight => exact (Bool.and_eq_true_iff.mp hflat).2
    | length ty h => exact absurd (.new ty _) hacts
    | castValue _ ty => exact absurd (.cast a ty) hacts
    | fieldBase | elemBase | receiver => rfl
    | elemIndex x => exact absurd (.elem x a) hacts
    | argument method receiver h => exact absurd (.call method _ receiver) hacts

end Expr

/-- The computation stops the run, whatever the effects so far. -/
def Exec.Stops {V α : Type} (x : Exec V α) : Prop :=
  ∀ (es es' : List (Effect V)) (a : α), x es ≠ (some a, es')

namespace Machine
variable {V : Type} {M : Machine V} {σ : Var → V}

section
variable {α β : Type} {x : Exec V α} {f : α → Exec V β}

theorem stops_bind (h : x.Stops ∨ ∀ a, (f a).Stops) : Exec.Stops (x >>= f) := by
  intro es es' b hb
  obtain ⟨a, es₁, hx, hf⟩ := exists_of_exec_bind hb
  rcases h with h | h
  · exact h es es₁ a hx
  · exact h a es₁ es' b hf

end

/-- An expression that is inert has a value on every machine, and nothing else comes of it. -/
theorem eval_inert : ∀ e : Expr, e.Inert → ∃ v, M.eval σ e = pure v
  | .lit n, _ => ⟨M.lit n, rfl⟩
  | .var x, _ => ⟨σ x, rfl⟩
  | .bin op l r, h => by
    obtain ⟨a, ha⟩ := eval_inert l (h.operand (.left op l r))
    obtain ⟨b, hb⟩ := eval_inert r (h.operand (.right op l r))
    have hop : op.traps = false := by
      simpa [Expr.isEffectFree, Expr.traps] using Expr.isEffectFree_iff.mpr (h _ .refl)
    refine ⟨M.apply op a b, ?_⟩
    rw [eval, ha, hb, hop]
    rfl
  | .uninterpreted op l r, h => by
    obtain ⟨a, ha⟩ := eval_inert l (h.operand (.uninterpretedLeft op l r))
    obtain ⟨b, hb⟩ := eval_inert r (h.operand (.uninterpretedRight op l r))
    refine ⟨M.custom op a b, ?_⟩
    rw [eval, ha, hb]
    rfl
  | .new ty lengths, h => absurd (.new ty lengths) (h _ .refl)
  | .cast e ty, h => absurd (.cast e ty) (h _ .refl)
  | .field name base owner, h => absurd (.field name base owner) (h _ .refl)
  | .elem x i, h => absurd (.elem x i) (h _ .refl)
  | .call method args receiver, h => absurd (.call method args receiver) (h _ .refl)

/-- A machine on which every value is zero and no effect is answered. -/
def barren : Machine Unit where
  lit _ := ()
  apply _ _ _ := ()
  custom _ _ _ := ()
  isZero _ := true
  isTrue _ := true
  takes _ _ := true
  oracle _ := none

theorem barren_emit (e : Effect Unit) : (barren.emit e).Stops := nofun

section
variable {τ : Var → Unit} {e a : Expr}

theorem barren_evalList {es : List Expr} (he : e ∈ es) (h : (barren.eval τ e).Stops) :
    (barren.evalList τ es).Stops := by
  induction es with
  | nil => cases he
  | cons b rest ih =>
    rw [evalList]
    rcases List.mem_cons.mp he with rfl | he
    · exact stops_bind (.inl h)
    · exact stops_bind (.inr fun _ => stops_bind (.inl (ih he)))

theorem barren_eval_of_acts (h : e.Acts) : (barren.eval τ e).Stops := by
  cases h with
  | new | cast | elem | call =>
    rw [eval]
    exact stops_bind (.inr fun _ => barren_emit _)
  | field =>
    rw [eval]
    exact barren_emit _
  | quotient | remainder =>
    rw [eval]
    exact stops_bind (.inr fun _ => stops_bind (.inr fun _ => nofun))

/-- Operands are evaluated, so an operand that stops the run stops it for the whole expression. -/
theorem barren_eval_of_operand (ha : a.Operand e) (h : (barren.eval τ a).Stops) :
    (barren.eval τ e).Stops := by
  cases ha with
  | left | uninterpretedLeft | castValue | elemIndex =>
    rw [eval]
    exact stops_bind (.inl h)
  | right | uninterpretedRight =>
    rw [eval]
    exact stops_bind (.inr fun _ => stops_bind (.inl h))
  | length ty hmem | argument method receiver hmem =>
    rw [eval]
    exact stops_bind (.inl (barren_evalList hmem h))
  | fieldBase | elemBase | receiver => exact absurd rfl (h [] [] ())

theorem barren_eval_of_within (hs : a.Within e) (h : a.Acts) : (barren.eval τ e).Stops := by
  induction hs with
  | refl => exact barren_eval_of_acts h
  | tail _ hop ih => exact barren_eval_of_operand hop ih

end

/-- The inert expressions are those that no machine can tell from a value. -/
theorem inert_iff_eval {e : Expr} : e.Inert ↔
    ∀ (V : Type) (M : Machine V) (σ : Var → V), ∃ v, M.eval σ e = pure v := by
  constructor
  · intro h V M σ
    exact eval_inert e h
  · intro h s hs hacts
    obtain ⟨v, hv⟩ := h Unit barren fun _ => ()
    have hrun : barren.eval (fun _ => ()) e [] = (some v, []) := by
      rw [hv]
      rfl
    exact barren_eval_of_within hs hacts [] [] v hrun

theorem perform_define {a : Action Nat} {x : Var} {e : Expr}
    (h : a.definition? = some (some (.var x), e)) (next : Nat) :
    a.defines? = some x ∧
      M.perform σ next a = M.eval σ e >>= fun v => pure (some (x, v), .running next) := by
  cases a with
  | assign | invoke =>
    cases h
    exact ⟨rfl, rfl⟩
  | _ => cases h

/-- A useless statement gives a variable that is not live a value and does nothing else, if what it
evaluates is inert. -/
theorem perform_useless {s : Stmt Nat} {place : Option LValue} {e : Expr} {live : LiveSet}
    (hdef : s.action.definition? = some (place, e)) (he : e.Inert) (hs : s.isUseless live = true)
    (next : Nat) : ∃ x v, s.action.defines? = some x ∧ live.contains x = false ∧
      M.perform σ next s.action = pure (some (x, v), .running next) := by
  rw [Stmt.isUseless, hdef] at hs
  split at hs
  · next x e hd =>
    cases hd
    obtain ⟨hlive, -⟩ := Bool.and_eq_true_iff.mp hs
    obtain ⟨v, hv⟩ := eval_inert (M := M) (σ := σ) e he
    obtain ⟨hx, hperform⟩ := perform_define (M := M) (σ := σ) hdef next
    refine ⟨x, v, hx, by simpa using hlive, ?_⟩
    rw [hperform, hv]
    rfl
  · cases hs

end Machine

/-- What the check is worth. An expression is inert if it passes and its operands are inert, which
the check does not ask for; among flat expressions those that pass are the inert ones. The inert
expressions are those that no machine can tell from a value, and a useless statement that evaluates
one does nothing but give a value to a variable that is not live. -/
theorem effectFree_unobserved (e : Expr) :
    (e.Inert ↔ e.isEffectFree = true ∧ ∀ a : Expr, a.Operand e → a.Inert) ∧
    (e.isFlat = true → (e.isEffectFree = true ↔ e.Inert)) ∧
    (e.Inert ↔ ∀ (V : Type) (M : Machine V) (σ : Var → V), ∃ v, M.eval σ e = pure v) ∧
    (e.Inert → ∀ (s : Stmt Nat) (place : Option LValue) (live : LiveSet),
      s.action.definition? = some (place, e) → s.isUseless live = true →
      ∀ (V : Type) (M : Machine V) (σ : Var → V) (next : Nat), ∃ x v,
        s.action.defines? = some x ∧ live.contains x = false ∧
        M.perform σ next s.action = pure (some (x, v), .running next)) := by
  refine ⟨?_, fun hflat => (Expr.inert_iff_isEffectFree hflat).symm, Machine.inert_iff_eval, ?_⟩
  · rw [Expr.isEffectFree_iff]
    exact Expr.inert_iff
  · intro he s place live hdef huseless V M σ next
    exact Machine.perform_useless hdef he huseless next

/-- A product of two variables is dropped from a statement that assigns a third one. -/
def product : Expr := .bin .mul (.var ⟨"a", "a", .prim .int⟩) (.var ⟨"b", "b", .prim .int⟩)

theorem product_unobserved : product.isFlat = true ∧ product.isEffectFree = true ∧
    product.Inert ∧
    (Stmt.mk 1 (.assign (.var ⟨"c", "c", .prim .int⟩) product)).isUseless .empty = true ∧
    ∃ x v, words.perform (fun _ => 6) 1 (.assign (.var ⟨"c", "c", .prim .int⟩) product) =
      pure (some (x, v), .running 1) := by
  obtain ⟨-, hflat, -, hdrop⟩ := effectFree_unobserved product
  have hinert : product.Inert := (hflat rfl).mp rfl
  have hs : (Stmt.mk 1 (.assign (.var ⟨"c", "c", .prim .int⟩) product)).isUseless .empty = true :=
    rfl
  obtain ⟨x, v, -, -, hperform⟩ := hdrop hinert _ _ .empty rfl hs Int words (fun _ => 6) 1
  exact ⟨rfl, rfl, hinert, hs, x, v, hperform⟩

def ratio : Expr := .bin .div (.var ⟨"a", "a", .prim .int⟩) (.var ⟨"b", "b", .prim .int⟩)

def ratioPlusOne : Expr := .bin .add ratio (.lit 1)

/-- A sum passes the check although its operand divides. A statement that assigns it to a variable
that is not live is useless, but it stops a run in which the divisor is zero. -/
theorem ratioPlusOne_stops : ratioPlusOne.isEffectFree = true ∧
    ratio.Within ratioPlusOne ∧ ratio.Acts ∧
    (Stmt.mk 1 (.assign (.var ⟨"c", "c", .prim .int⟩) ratioPlusOne)).isUseless .empty = true ∧
    words.perform (fun _ => 0) 1 (.assign (.var ⟨"c", "c", .prim .int⟩) ratioPlusOne) [] =
      (none, []) :=
  ⟨rfl, .single (.left ..), .quotient .., rfl, rfl⟩

end FlowLint
