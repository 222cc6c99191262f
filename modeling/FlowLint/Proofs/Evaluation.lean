import FlowLint.Proofs.Dataflow.ConstantPropagation

/-! # Evaluation over integers

A store gives every variable an integer, of any size where the variable is not tracked. Evaluation
under a fact that describes the tracked variables takes into account what an expression yields, and
it never knows another constant. It may be undefined though where the expression reads a variable
that is not tracked: the fact knows nothing of it, and no operator tells that from a variable that
has not been assigned.
-/
namespace FlowLint

namespace BinOp

/-- The meaning of an operator on integers: comparisons compare them as they are given, and the
other operators take their words. -/
def onInts (op : BinOp) (a b : Int) : Int :=
  match op with
  | eq => truth (a = b)
  | ne => truth (a ≠ b)
  | lt => truth (a < b)
  | le => truth (a ≤ b)
  | gt => truth (b < a)
  | ge => truth (b ≤ a)
  | _ => (op.onBits (BitVec.ofInt 32 a) (BitVec.ofInt 32 b)).toInt

theorem onInts_of_word (op : BinOp) {a b : Int} (ha : Word32.wrap a = a) (hb : Word32.wrap b = b) :
    op.onInts a b = (op.onBits (BitVec.ofInt 32 a) (BitVec.ofInt 32 b)).toInt := by
  have h := op.onWords_wrap a b
  rw [ha, hb] at h
  cases op with
  | eq | ne | lt | le | gt | ge => exact h
  | _ => rfl

theorem onInts_toInt (op : BinOp) (a b : BitVec 32) :
    op.onInts a.toInt b.toInt = (op.onBits a b).toInt := by
  rw [onInts_of_word op (Word32.wrap_toInt a) (Word32.wrap_toInt b), BitVec.ofInt_toInt,
    BitVec.ofInt_toInt]

/-- Values that take two integers into account are taken to one that takes the result into account.
An operand that is undefined for a reason of its own passes the reason on. -/
theorem onValues_covers_onInts {op : BinOp} {a b : Int} {u v : Value} {P Q : Prop}
    (hu : (Value.const a).leq u = true ∨ u = .undef ∧ P)
    (hv : (Value.const b).leq v = true ∨ v = .undef ∧ Q) (huw : u.IsWord) (hvw : v.IsWord)
    (hop : op.traps = true → Word32.wrap b ≠ 0) :
    ∃ k, op.onValues u v = .ok k ∧
      ((Value.const (op.onInts a b)).leq k = true ∨ k = .undef ∧ (P ∨ Q)) := by
  rcases op.onValues_cases u v with ⟨⟨ht, rfl⟩, -⟩ | ⟨-, h⟩ | ⟨-, hundef, h⟩ | ⟨m, n, rfl, rfl, hz⟩
  · have hb := Value.const_leq_const.mp (hv.resolve_right nofun)
    exact absurd (congrArg Word32.wrap hb) (hop ht)
  · exact ⟨.nac, h, .inl (Value.leq_nac _)⟩
  · refine ⟨.undef, h, .inr ⟨rfl, ?_⟩⟩
    rcases hundef with rfl | rfl
    · exact .inl (hu.resolve_left nofun).2
    · exact .inr (hv.resolve_left nofun).2
  · obtain rfl := Value.const_leq_const.mp (hu.resolve_right nofun)
    obtain rfl := Value.const_leq_const.mp (hv.resolve_right nofun)
    refine ⟨_, onValues_const (hvw _ rfl), .inl ?_⟩
    rw [if_neg hz, onInts_of_word op (huw _ rfl) (hvw _ rfl)]
    exact Value.leq_refl _

end BinOp

namespace Expr

/-- Whether evaluation reads a variable that is not tracked. -/
def readsUntracked : Expr → Bool
  | .var x => !x.holdsInt
  | .bin _ l r => l.readsUntracked || r.readsUntracked
  | _ => false

/-- What an expression yields in a store of integers: nothing where a zero divisor stops it, or
where something else than a literal, a variable or an operator occurs. -/
def meaning (σ : Var → Int) : Expr → Option Int
  | lit n => some (Word32.wrap n)
  | var x => some (σ x)
  | bin op l r => do
    let a ← l.meaning σ
    let b ← r.meaning σ
    if op.traps && Word32.wrap b == 0 then none else some (op.onInts a b)
  | _ => none

theorem meaning_bin_eq {σ : Var → Int} {op : BinOp} {l r : Expr} {c : Int}
    (h : (bin op l r).meaning σ = some c) : ∃ a b, l.meaning σ = some a ∧ r.meaning σ = some b ∧
      (op.traps = true → Word32.wrap b ≠ 0) ∧ op.onInts a b = c := by
  rw [meaning] at h
  obtain ⟨a, ha, h⟩ := Option.bind_eq_some_iff.mp h
  obtain ⟨b, hb, h⟩ := Option.bind_eq_some_iff.mp h
  split at h
  · cases h
  · next hz => exact ⟨a, b, ha, hb, by simpa using hz, Option.some.inj h⟩

/-- Evaluation takes into account what an expression yields in a store, if the fact does so for its
tracked variables. It may be undefined instead only if the expression reads others. -/
theorem eval_covers_meaning {σ : Var → Int} {f : Constants} {e : Expr} {c : Int}
    (htracked : ∀ x ∈ f.keys, x.holdsInt = true) (hrange : f.inRange = true)
    (hσ : ∀ x ∈ e.uses, x.holdsInt = true → (Value.const (σ x)).leq (f.get x) = true)
    (hc : e.meaning σ = some c) :
    ∃ v, e.eval f = .ok v ∧
      ((Value.const c).leq v = true ∨ v = .undef ∧ e.readsUntracked = true) := by
  have hwords := Constants.isWord_of_inRange hrange
  induction e using eval.induct generalizing c with
  | case1 n =>
    cases hc
    exact ⟨_, rfl, .inl (Value.leq_refl _)⟩
  | case2 x =>
    cases hc
    refine ⟨_, rfl, ?_⟩
    cases hx : x.holdsInt with
    | true => exact .inl (hσ x (List.mem_singleton_self x) hx)
    | false =>
      have hkey : x ∉ f.keys := fun hmem => by
        rw [htracked x hmem] at hx
        cases hx
      exact .inr ⟨FactMap.get_of_not_mem hkey, by rw [readsUntracked, hx]; rfl⟩
  | case3 op l r ihl ihr =>
    obtain ⟨a, b, ha, hb, hop, rfl⟩ := meaning_bin_eq hc
    obtain ⟨u, hu, hua⟩ := ihl (fun x hx => hσ x (List.mem_append_left _ hx)) ha
    obtain ⟨v, hv, hvb⟩ := ihr (fun x hx => hσ x (List.mem_append_right _ hx)) hb
    obtain ⟨u', hu', huw⟩ := l.eval_word hwords
    obtain ⟨v', hv', hvw⟩ := r.eval_word hwords
    obtain rfl := Except.ok.inj (hu.symm.trans hu')
    obtain rfl := Except.ok.inj (hv.symm.trans hv')
    rw [eval_bin_of hu hv, readsUntracked, Bool.or_eq_true]
    exact BinOp.onValues_covers_onInts hua hvb huw hvw hop
  | case4 e hlit hvar hbin =>
    rw [meaning.eq_4 σ e hlit hvar hbin] at hc
    cases hc

/-- A comparison of a shifted variable. -/
def shifted : Expr := .bin .ge (.bin .shl (.var ⟨"x", "x", .prim .int⟩) (.lit 2)) (.lit 28)

theorem shifted_covers_meaning : ∃ f : Constants, f.get ⟨"x", "x", .prim .int⟩ = .const 7 ∧
    shifted.meaning (fun _ => 7) = some 1 ∧
    ∃ v, shifted.eval f = .ok v ∧ (Value.const 1).leq v = true := by
  let f : Constants := ⟨[(⟨"x", "x", .prim .int⟩, .const 7)]⟩
  have hσ : ∀ x ∈ shifted.uses, x.holdsInt = true → (Value.const 7).leq (f.get x) = true := by
    decide
  have hc : shifted.meaning (fun _ => 7) = some 1 := by decide
  obtain ⟨v, hv, hcov⟩ := eval_covers_meaning (f := f) (by decide) rfl hσ hc
  exact ⟨f, rfl, hc, v, hv, hcov.resolve_right (by simp [shifted, readsUntracked, Var.holdsInt,
    Ty.holdsInt])⟩

/-- A comparison of variables that are not tracked. -/
def longsEqual : Expr := .bin .eq (.var ⟨"a", "a", .prim .long⟩) (.var ⟨"b", "b", .prim .long⟩)

/-- In a store where the two are equal the comparison yields one, but its value is undefined, as if
it had none. -/
theorem longsEqual_undefined : ∃ (σ : Var → Int) (f : Constants),
    (∀ x ∈ f.keys, x.holdsInt = true) ∧ f.inRange = true ∧
    (∀ x ∈ longsEqual.uses, x.holdsInt = true → (Value.const (σ x)).leq (f.get x) = true) ∧
    longsEqual.meaning σ = some 1 ∧
    ∃ v, longsEqual.eval f = .ok v ∧ (Value.const 1).leq v = false :=
  ⟨fun _ => 5000000000, .empty, by decide, rfl, by decide, by decide, .undef, rfl, rfl⟩

end Expr

end FlowLint
