import FlowLint.Proofs.Dataflow.ConstantPropagation
import Mathlib.Data.List.ProdSigma

/-! # Where the transfer of constants is monotone

There is one way for the transfer to lose the order of facts: the right-hand side is no constant
under the lower fact and undefined under the upper one. It takes a division of something that is no
constant by a variable operand that goes from undefined to zero.
-/
namespace FlowLint

namespace Analysis
variable {φ : Type} {a : Analysis φ} {s : Stmt Nat} {leq : φ → φ → Bool} {samples : List φ}
  {f g h k : φ}

/-- Whether the transfer of a statement keeps the order of one pair. -/
def keepsOrder (a : Analysis φ) (s : Stmt Nat) (leq : φ → φ → Bool) (p : φ × φ) :
    Except Error Bool :=
  if leq p.1 p.2 then do
    let f ← a.transfer s p.1
    let g ← a.transfer s p.2
    return leq f g
  else .ok true

theorem isMonotoneOn_eq (samples : List φ) : a.isMonotoneOn s leq samples =
    (samples.product samples).allM (a.keepsOrder s leq) := rfl

theorem keepsOrder_eq (hh : a.transfer s f = .ok h) (hk : a.transfer s g = .ok k) :
    a.keepsOrder s leq (f, g) = .ok (!leq f g || leq h k) := by
  rw [keepsOrder, hh, hk]
  cases leq f g <;> rfl

/-- The check fails on samples exactly if the transfer loses the order of two of them. -/
theorem isMonotoneOn_spec (leq : φ → φ → Bool)
    (hok : ∀ f ∈ samples, ∃ h, a.transfer s f = .ok h) :
    ∃ b, a.isMonotoneOn s leq samples = .ok b ∧ (b = true ↔
      ∀ f ∈ samples, ∀ g ∈ samples, leq f g = true →
        ∀ h k, a.transfer s f = .ok h → a.transfer s g = .ok k → leq h k = true) := by
  have hpair : ∀ p ∈ samples.product samples, ∃ h k, a.transfer s p.1 = .ok h ∧
      a.transfer s p.2 = .ok k ∧ a.keepsOrder s leq p = .ok (!leq p.1 p.2 || leq h k) := by
    intro p hp
    obtain ⟨hf, hg⟩ := List.pair_mem_product.mp hp
    obtain ⟨h, hh⟩ := hok p.1 hf
    obtain ⟨k, hk⟩ := hok p.2 hg
    exact ⟨h, k, hh, hk, keepsOrder_eq hh hk⟩
  have hall : ∀ p ∈ samples.product samples, ∃ b, a.keepsOrder s leq p = .ok b := by
    intro p hp
    obtain ⟨h, k, -, -, he⟩ := hpair p hp
    exact ⟨_, he⟩
  obtain ⟨b, hb, hiff⟩ := exists_allM hall
  refine ⟨b, (isMonotoneOn_eq samples).trans hb, hiff.trans ⟨?_, fun hall p hp => ?_⟩⟩
  · intro hall f hf g hg hfg h k hh hk
    have hp := hall (f, g) (List.pair_mem_product.mpr ⟨hf, hg⟩)
    rw [keepsOrder_eq hh hk, hfg] at hp
    exact Except.ok.inj hp
  · obtain ⟨h, k, hh, hk, he⟩ := hpair p hp
    obtain ⟨hf, hg⟩ := List.pair_mem_product.mp hp
    rw [he]
    cases hfg : leq p.1 p.2 with
    | false => rfl
    | true =>
      rw [hall p.1 hf p.2 hg hfg h k hh hk]
      rfl

end Analysis

namespace BinOp
variable {op : BinOp} {a b a' b' v w : Value}

/-- Where operands keep the order or fall from no constant to undefined, so does the result. -/
theorem onValues_leq_or_falls (ha : a.leq a' = true ∨ a = .nac ∧ a' = .undef)
    (hb : b.leq b' = true ∨ b = .nac ∧ b' = .undef)
    (hv : op.onValues a b = .ok v) (hw : op.onValues a' b' = .ok w) :
    v.leq w = true ∨ v = .nac ∧ w = .undef := by
  cases v with
  | undef => exact .inl (Value.undef_leq w)
  | const n =>
    obtain ⟨⟨i, rfl⟩, j, rfl⟩ := exists_const_of_onValues hv
    have ha := ha.resolve_right nofun
    have hb := hb.resolve_right nofun
    exact .inl ((onValues_leq_iff ha hb hv hw).mpr nofun)
  | nac =>
    cases w with
    | undef => exact .inr ⟨rfl, rfl⟩
    | nac => exact .inl rfl
    | const n =>
      -- no operand is less than a constant above, so none was no constant below
      obtain ⟨⟨i, rfl⟩, j, rfl⟩ := exists_const_of_onValues hw
      have ha := ha.resolve_right nofun
      have hb := hb.resolve_right nofun
      rcases nac_of_onValues hv with rfl | rfl
      · cases ha
      · cases hb

end BinOp

namespace Expr
variable {f g : Constants} {e : Expr} {v w : Value}

/-- Under a greater fact an expression has a greater value, or it falls from no constant to
undefined. -/
theorem eval_leq_or_falls (hfg : f.leq g = true) (hv : e.eval f = .ok v) (hw : e.eval g = .ok w) :
    v.leq w = true ∨ v = .nac ∧ w = .undef := by
  induction e using eval.induct generalizing v w with
  | case1 n =>
    cases hv
    cases hw
    exact .inl (Value.leq_refl _)
  | case2 x =>
    cases hv
    cases hw
    exact .inl (Constants.leq_iff.mp hfg x)
  | case3 op l r ihl ihr =>
    obtain ⟨a, b, ha, hb, hv⟩ := eval_bin_eq hv
    obtain ⟨a', b', ha', hb', hw⟩ := eval_bin_eq hw
    exact BinOp.onValues_leq_or_falls (ihl ha ha') (ihr hb hb') hv hw
  | case4 e hlit hvar hbin =>
    rw [eval.eq_4 g e hlit hvar hbin] at hw
    cases hw
    exact .inl (Value.leq_nac v)

/-- Whether all divisors are literals. -/
def dividesByLiterals : Expr → Bool
  | bin op l r => l.dividesByLiterals && r.dividesByLiterals && (!op.traps || r.isLiteral)
  | _ => true

theorem dividesSteadily_of_literals (f g : Constants) (h : e.dividesByLiterals = true) :
    e.dividesSteadily f g = true := by
  induction e using eval.induct with
  | case3 op l r ihl ihr =>
    rw [dividesByLiterals, Bool.and_eq_true, Bool.and_eq_true] at h
    obtain ⟨⟨hl, hr⟩, hlit⟩ := h
    rw [dividesSteadily, ihl hl, ihr hr]
    cases hop : op.traps with
    | false => rfl
    | true =>
      rw [hop] at hlit
      cases r with
      | lit n => simp [eval]
      | _ => cases hlit
  | _ => simp_all [dividesSteadily]

end Expr

namespace Stmt

/-- A statement defines a tracked variable by an expression that is no constant under the first fact
and undefined under the second. -/
def Falls (s : Stmt Nat) (f g : Constants) : Prop :=
  ∃ x e, s.tracked? = some (x, e) ∧ e.eval f = .ok .nac ∧ e.eval g = .ok .undef

def dividesByLiterals (s : Stmt Nat) : Bool := s.tracked?.all fun p => p.2.dividesByLiterals

theorem dividesSteadily_of_literals {s : Stmt Nat} (f g : Constants)
    (h : s.dividesByLiterals = true) : s.dividesSteadily f g = true := by
  rw [dividesByLiterals] at h
  rw [dividesSteadily]
  cases ht : s.tracked? with
  | none => rfl
  | some p =>
    rw [ht] at h
    exact Expr.dividesSteadily_of_literals f g h

end Stmt

namespace ConstantPropagation
variable {f g h k : Constants} {s : Stmt Nat}

theorem transfer_ok (s : Stmt Nat) (hf : f.inRange = true) : ∃ h, transfer s f = .ok h := by
  cases ht : s.tracked? with
  | some p =>
    obtain ⟨v, hv, -⟩ := p.2.eval_word (Constants.isWord_of_inRange hf)
    rw [transfer_of_some ht, hv]
    exact ⟨_, rfl⟩
  | none => exact ⟨f, transfer_of_none ht f⟩

theorem transfer_leq_iff (hfg : f.leq g = true) (hh : transfer s f = .ok h)
    (hk : transfer s g = .ok k) : h.leq k = true ↔ ¬s.Falls f g := by
  cases ht : s.tracked? with
  | some p =>
    obtain ⟨x, e⟩ := p
    rw [transfer_of_some ht] at hh hk
    obtain ⟨v, hv, rfl⟩ := exists_of_map hh
    obtain ⟨w, hw, rfl⟩ := exists_of_map hk
    rw [Constants.update_leq_iff hfg]
    constructor
    · rintro hle ⟨y, d, hd, hnac, hundef⟩
      cases ht.symm.trans hd
      cases hv.symm.trans hnac
      cases hw.symm.trans hundef
      cases hle
    · intro hfalls
      refine (Expr.eval_leq_or_falls hfg hv hw).resolve_right ?_
      rintro ⟨rfl, rfl⟩
      exact hfalls ⟨x, e, ht, hv, hw⟩
  | none =>
    rw [transfer_of_none ht] at hh hk
    cases hh
    cases hk
    refine iff_of_true hfg ?_
    rintro ⟨x, e, hd, -⟩
    cases ht.symm.trans hd

/-- The transfer of a statement keeps the order of two facts unless its right-hand side falls, which
takes a division that is not steady: no statement that divides by literals only has one. A check of
samples tells whether the right-hand side falls between two of them. -/
theorem transfer_monotone (s : Stmt Nat) :
    (∀ f g, f.inRange = true → g.inRange = true → f.leq g = true →
      ∃ h k, transfer s f = .ok h ∧ transfer s g = .ok k ∧ (h.leq k = true ↔ ¬s.Falls f g) ∧
        (s.dividesSteadily f g = true → h.leq k = true)) ∧
    (∀ samples, (∀ f ∈ samples, f.inRange = true) →
      ∃ b, analysis.isMonotoneOn s Constants.leq samples = .ok b ∧
        (b = true ↔ ∀ f ∈ samples, ∀ g ∈ samples, f.leq g = true → ¬s.Falls f g)) ∧
    (s.dividesByLiterals = true → ∀ f g, s.dividesSteadily f g = true) := by
  refine ⟨fun f g hf hg hfg => ?_, fun samples hsamples => ?_, fun hlit f g => ?_⟩
  · obtain ⟨h, hh⟩ := transfer_ok s hf
    obtain ⟨k, hk⟩ := transfer_ok s hg
    exact ⟨h, k, hh, hk, transfer_leq_iff hfg hh hk, fun hs => transfer_mono hfg hs hh hk⟩
  · have hok : ∀ f ∈ samples, ∃ h, transfer s f = .ok h := fun f hf => transfer_ok s (hsamples f hf)
    obtain ⟨b, hb, hiff⟩ := Analysis.isMonotoneOn_spec (a := analysis) Constants.leq hok
    refine ⟨b, hb, hiff.trans ⟨?_, fun hall f hf g hg hfg h k hh hk => ?_⟩⟩
    · intro hall f hf g hg hfg
      obtain ⟨h, hh⟩ := hok f hf
      obtain ⟨k, hk⟩ := hok g hg
      exact (transfer_leq_iff hfg hh hk).mp (hall f hf g hg hfg h k hh hk)
    · exact (transfer_leq_iff hfg hh hk).mpr (hall f hf g hg hfg)
  · exact Stmt.dividesSteadily_of_literals f g hlit

def quotient : Stmt Nat :=
  ⟨1, .assign (.var ⟨"z", "z", .prim .int⟩)
    (.bin .div (.var ⟨"x", "x", .prim .int⟩) (.var ⟨"y", "y", .prim .int⟩))⟩

/-- The dividend is no constant, and nothing is known of the divisor. -/
def dividendOnly : Constants := ⟨[(⟨"x", "x", .prim .int⟩, .nac)]⟩

def withDivisor (n : Int) : Constants :=
  ⟨[(⟨"x", "x", .prim .int⟩, .nac), (⟨"y", "y", .prim .int⟩, .const n)]⟩

/-- A divisor that turns out to be two does no harm. -/
theorem quotient_by_two_monotone :
    dividendOnly.inRange = true ∧ (withDivisor 2).inRange = true ∧
    dividendOnly.leq (withDivisor 2) = true ∧
    (∃ h k, transfer quotient dividendOnly = .ok h ∧ transfer quotient (withDivisor 2) = .ok k ∧
      h.leq k = true) ∧
    analysis.isMonotoneOn quotient Constants.leq [dividendOnly, withDivisor 2] = .ok true := by
  have hrange : ∀ f ∈ [dividendOnly, withDivisor 2], f.inRange = true := by decide
  have hsteady : ∀ f ∈ [dividendOnly, withDivisor 2], ∀ g ∈ [dividendOnly, withDivisor 2],
      f.leq g = true → quotient.dividesSteadily f g = true := by decide
  obtain ⟨hkept, hcheck, -⟩ := transfer_monotone quotient
  obtain ⟨h, k, hh, hk, -, hle⟩ := hkept dividendOnly (withDivisor 2) rfl rfl rfl
  obtain ⟨b, hb, hiff⟩ := hcheck [dividendOnly, withDivisor 2] hrange
  have hfalls : b = true := by
    refine hiff.mpr fun f hf g hg hfg => ?_
    obtain ⟨h, k, -, -, hiff, hle⟩ := hkept f g (hrange f hf) (hrange g hg) hfg
    exact hiff.mp (hle (hsteady f hf g hg hfg))
  exact ⟨rfl, rfl, rfl, ⟨h, k, hh, hk, hle rfl⟩, hfalls ▸ hb⟩

/-- A divisor that turns out to be zero takes the quotient from no constant to undefined. -/
theorem quotient_by_zero_not_monotone :
    dividendOnly.inRange = true ∧ (withDivisor 0).inRange = true ∧
    dividendOnly.leq (withDivisor 0) = true ∧
    (∃ h k, transfer quotient dividendOnly = .ok h ∧ transfer quotient (withDivisor 0) = .ok k ∧
      h.leq k = false) ∧
    analysis.isMonotoneOn quotient Constants.leq [dividendOnly, withDivisor 0] = .ok false :=
  ⟨rfl, rfl, rfl, ⟨_, _, rfl, rfl, rfl⟩, rfl⟩

end ConstantPropagation

end FlowLint
