import FlowLint.Dataflow.ConstantPropagation
import FlowLint.Proofs.Dataflow.Solution
import FlowLint.Proofs.Fact.Constants
import FlowLint.Proofs.Words

/-! # The laws of constant propagation

The facts of a run bind tracked variables to words. On such facts evaluation does not fail, and it
keeps the order of facts but for one case: a dividend that is no constant over a divisor that turns
out to be zero.
-/
namespace FlowLint

/-- A constant that is known is a word. -/
def Value.IsWord (v : Value) : Prop := ∀ n, v = .const n → Word32.wrap n = n

def Value.inRange : Value → Bool
  | .const n => -2147483648 ≤ n && n ≤ 2147483647
  | _ => true

theorem Value.inRange_iff {v : Value} : v.inRange = true ↔ v.IsWord := by
  cases v with
  | const n =>
    rw [inRange, Bool.and_eq_true, decide_eq_true_eq, decide_eq_true_eq, ← Word32.wrap_eq_self_iff]
    exact ⟨fun h k hk => const.inj hk ▸ h, fun h => h n rfl⟩
  | _ => exact ⟨fun _ => nofun, fun _ => rfl⟩

/-- Whether all constants of a fact are words. -/
def Constants.inRange (f : Constants) : Bool := f.entries.all fun b => b.2.inRange

theorem Constants.isWord_of_inRange {f : Constants} (h : f.inRange = true) (x : Var) :
    (f.get x).IsWord := by
  rw [FactMap.get]
  cases hx : f.find? x with
  | none =>
    intro n hn
    cases hn
  | some v =>
    have hmem := FactMap.mem_of_find? hx
    exact Value.inRange_iff.mp (List.all_eq_true.mp h _ hmem)

/-- What a run may know: every variable is bound once, only tracked ones are, and to words. -/
structure Constants.Valid (f : Constants) : Prop where
  canonical : f.Canonical
  tracked : ∀ x, f.get x ≠ .undef → x.holdsInt = true
  words : ∀ x, (f.get x).IsWord

namespace BinOp
variable {op : BinOp} {a b a' b' v w : Value}

theorem onValues_zero (hop : op.traps = true) (a : Value) :
    op.onValues a (.const 0) = .ok .undef := by
  simp [onValues, hop]

theorem onValues_nac (hz : ¬(op.traps = true ∧ b = .const 0)) (h : a = .nac ∨ b = .nac) :
    op.onValues a b = .ok .nac := by
  rcases h with rfl | rfl
  · simp [onValues, hz]
  · cases a <;> simp [onValues]

theorem onValues_undef (ha : a ≠ .nac) (hb : b ≠ .nac) (h : a = .undef ∨ b = .undef) :
    op.onValues a b = .ok .undef := by
  rcases h with rfl | rfl
  · cases b <;> simp_all [onValues]
  · cases a <;> simp_all [onValues]

/-- The four cases of an operator, in the order in which they are tried. -/
theorem onValues_cases (op : BinOp) (a b : Value) :
    (op.traps = true ∧ b = .const 0) ∧ op.onValues a b = .ok .undef ∨
    (a = .nac ∨ b = .nac) ∧ op.onValues a b = .ok .nac ∨
    (a ≠ .nac ∧ b ≠ .nac) ∧ (a = .undef ∨ b = .undef) ∧ op.onValues a b = .ok .undef ∨
    ∃ m n, a = .const m ∧ b = .const n ∧ ¬(op.traps = true ∧ n = 0) := by
  by_cases hz : op.traps = true ∧ b = .const 0
  · obtain ⟨hop, rfl⟩ := hz
    exact .inl ⟨⟨hop, rfl⟩, onValues_zero hop a⟩
  by_cases hnac : a = .nac ∨ b = .nac
  · exact .inr (.inl ⟨hnac, onValues_nac hz hnac⟩)
  rw [not_or] at hnac
  by_cases hundef : a = .undef ∨ b = .undef
  · exact .inr (.inr (.inl ⟨hnac, hundef, onValues_undef hnac.1 hnac.2 hundef⟩))
  rw [not_or] at hundef
  obtain ⟨m, rfl⟩ := Value.exists_const hundef.1 hnac.1
  obtain ⟨n, rfl⟩ := Value.exists_const hundef.2 hnac.2
  exact .inr (.inr (.inr ⟨m, n, rfl, rfl, fun h => hz ⟨h.1, congrArg Value.const h.2⟩⟩))

/-- No constant comes of an operand that is none. -/
theorem exists_const_of_onValues {n : Int} (h : op.onValues a b = .ok (.const n)) :
    (∃ i, a = .const i) ∧ ∃ j, b = .const j := by
  rcases op.onValues_cases a b with ⟨-, h'⟩ | ⟨-, h'⟩ | ⟨-, -, h'⟩ | ⟨i, j, hi, hj, -⟩
  · cases h.symm.trans h'
  · cases h.symm.trans h'
  · cases h.symm.trans h'
  · exact ⟨⟨i, hi⟩, j, hj⟩

theorem nac_of_onValues (h : op.onValues a b = .ok .nac) : a = .nac ∨ b = .nac := by
  rcases op.onValues_cases a b with ⟨-, h'⟩ | ⟨hnac, -⟩ | ⟨-, -, h'⟩ | ⟨m, n, rfl, rfl, hz⟩
  · cases h.symm.trans h'
  · exact hnac
  · cases h.symm.trans h'
  · rw [onValues, if_neg (by simpa using hz)] at h
    obtain ⟨k, -, hk⟩ := exists_of_map h
    cases k <;> cases hk

theorem onValues_const {m n : Int} (hn : Word32.wrap n = n) :
    op.onValues (.const m) (.const n) = .ok (if op.traps = true ∧ n = 0 then .undef
      else .const (op.onBits (BitVec.ofInt 32 m) (BitVec.ofInt 32 n)).toInt) := by
  rw [onValues, fold_of_word op m hn]
  by_cases hz : op.traps = true ∧ n = 0
  · simp [hz]
  · simp [hz, Except.map]

theorem onValues_word (op : BinOp) (a : Value) (hb : b.IsWord) :
    ∃ v, op.onValues a b = .ok v ∧ v.IsWord := by
  rcases op.onValues_cases a b with ⟨-, h⟩ | ⟨-, h⟩ | ⟨-, -, h⟩ | ⟨m, n, rfl, rfl, hz⟩
  · exact ⟨.undef, h, nofun⟩
  · exact ⟨.nac, h, nofun⟩
  · exact ⟨.undef, h, nofun⟩
  · refine ⟨_, onValues_const (hb n rfl), fun k hk => ?_⟩
    rw [if_neg hz] at hk
    cases hk
    exact Word32.wrap_toInt _

/-- Operators keep the order of values, unless nothing is known of the divisor of something that is
no constant and the divisor turns out to be zero. -/
theorem onValues_leq_iff (ha : a.leq a' = true) (hb : b.leq b' = true)
    (hv : op.onValues a b = .ok v) (hw : op.onValues a' b' = .ok w) :
    v.leq w = true ↔ ¬(op.traps = true ∧ a = .nac ∧ b = .undef ∧ b' = .const 0) := by
  constructor
  · rintro h ⟨hop, rfl, rfl, rfl⟩
    rw [onValues_nac (by simp) (.inl rfl)] at hv
    rw [onValues_zero hop] at hw
    cases hv
    cases hw
    cases h
  intro hsteady
  have hbottom : op.onValues a b = .ok .undef → v.leq w = true := by
    intro h
    obtain rfl : v = .undef := Except.ok.inj (hv.symm.trans h)
    exact Value.undef_leq w
  by_cases hz : op.traps = true ∧ b = .const 0
  · obtain ⟨hop, rfl⟩ := hz
    exact hbottom (onValues_zero hop a)
  by_cases hz' : op.traps = true ∧ b' = .const 0
  · obtain ⟨hop, rfl⟩ := hz'
    -- the divisor was not zero before, so nothing was known of it
    have hundef : b = .undef := by
      by_contra hne
      exact hz ⟨hop, Value.eq_of_leq hb hne nofun⟩
    have hnac : a ≠ .nac := fun ha => hsteady ⟨hop, ha, hundef, rfl⟩
    exact hbottom (onValues_undef hnac (by rw [hundef]; nofun) (.inr hundef))
  by_cases hnac : a' = .nac ∨ b' = .nac
  · rw [onValues_nac hz' hnac] at hw
    cases hw
    exact Value.leq_nac v
  rw [not_or] at hnac
  by_cases hundef : a = .undef ∨ b = .undef
  · have ha' := Value.ne_nac_of_leq ha hnac.1
    have hb' := Value.ne_nac_of_leq hb hnac.2
    exact hbottom (onValues_undef ha' hb' hundef)
  rw [not_or] at hundef
  obtain rfl := Value.eq_of_leq ha hundef.1 hnac.1
  obtain rfl := Value.eq_of_leq hb hundef.2 hnac.2
  obtain rfl := Except.ok.inj (hv.symm.trans hw)
  exact Value.leq_refl v

end BinOp

namespace Expr

/-- Whether a division occurs where it is evaluated. -/
def divides : Expr → Bool
  | bin op l r => op.traps || l.divides || r.divides
  | _ => false

def isLiteral : Expr → Bool
  | lit _ => true
  | _ => false

/-- Whether no dividend that is known to be no constant stands over a divisor that is known to be
zero, unless the divisor is a literal. -/
def dividesSafely (known : Constants) : Expr → Bool
  | bin op l r => l.dividesSafely known && r.dividesSafely known &&
    (!op.traps || match l.eval known, r.eval known with
      | .ok .nac, .ok (.const 0) => r.isLiteral
      | _, _ => true)
  | _ => true

/-- Whether no dividend that the first fact knows to be no constant stands over a divisor of which
it knows nothing and the second fact knows that it is zero. -/
def dividesSteadily (f g : Constants) : Expr → Bool
  | bin op l r => l.dividesSteadily f g && r.dividesSteadily f g &&
    (!op.traps || match l.eval f, r.eval f, r.eval g with
      | .ok .nac, .ok .undef, .ok (.const 0) => false
      | _, _, _ => true)
  | _ => true

theorem dividesSafely_of_not_divides (known : Constants) {e : Expr} (h : e.divides = false) :
    e.dividesSafely known = true := by
  induction e using Expr.eval.induct with
  | case3 op l r ihl ihr =>
    simp only [divides, Bool.or_eq_false_iff] at h
    simp [dividesSafely, ihl h.1.2, ihr h.2, h.1.1]
  | _ => simp_all [dividesSafely]

variable {f g : Constants} {e : Expr} {v w : Value}

theorem eval_bin_eq {op : BinOp} {l r : Expr} (h : (bin op l r).eval f = .ok v) :
    ∃ a b, l.eval f = .ok a ∧ r.eval f = .ok b ∧ op.onValues a b = .ok v := by
  obtain ⟨a, ha, h⟩ := exists_of_bind h
  obtain ⟨b, hb, h⟩ := exists_of_bind h
  exact ⟨a, b, ha, hb, h⟩

theorem eval_bin_of {op : BinOp} {l r : Expr} {a b : Value} (ha : l.eval f = .ok a)
    (hb : r.eval f = .ok b) : (bin op l r).eval f = op.onValues a b := by
  rw [eval, ha, hb]
  rfl

theorem eval_word (hf : ∀ x, (f.get x).IsWord) (e : Expr) :
    ∃ v, e.eval f = .ok v ∧ v.IsWord := by
  induction e using eval.induct with
  | case1 n =>
    refine ⟨_, rfl, fun k hk => ?_⟩
    cases hk
    exact Word32.wrap_wrap n
  | case2 x => exact ⟨_, rfl, hf x⟩
  | case3 op l r ihl ihr =>
    obtain ⟨a, ha, -⟩ := ihl
    obtain ⟨b, hb, hbw⟩ := ihr
    rw [eval_bin_of ha hb]
    exact BinOp.onValues_word op a hbw
  | case4 e hlit hvar hbin =>
    rw [eval.eq_4 f e hlit hvar hbin]
    exact ⟨.nac, rfl, nofun⟩

theorem eval_congr (h : ∀ x, f.get x = g.get x) (e : Expr) : e.eval f = e.eval g := by
  induction e using eval.induct with
  | case1 n => rfl
  | case2 x => exact congrArg Except.ok (h x)
  | case3 op l r ihl ihr => rw [eval, eval, ihl, ihr]
  | case4 e hlit hvar hbin =>
    rw [eval.eq_4 f e hlit hvar hbin, eval.eq_4 g e hlit hvar hbin]

theorem dividesSteadily_bin {op : BinOp} {l r : Expr} {a b b' : Value} (ha : l.eval f = .ok a)
    (hb : r.eval f = .ok b) (hb' : r.eval g = .ok b') :
    (bin op l r).dividesSteadily f g = true ↔
      l.dividesSteadily f g = true ∧ r.dividesSteadily f g = true ∧
        ¬(op.traps = true ∧ a = .nac ∧ b = .undef ∧ b' = .const 0) := by
  rw [dividesSteadily, ha, hb, hb', Bool.and_eq_true, Bool.and_eq_true, and_assoc]
  refine and_congr_right fun _ => and_congr_right fun _ => ?_
  cases op.traps with
  | false => simp
  | true =>
    split
    · next h₁ h₂ h₃ =>
      cases h₁
      cases h₂
      cases h₃
      simp
    · next h =>
      simp only [Bool.not_true, Bool.false_or, true_iff, true_and]
      rintro ⟨rfl, rfl, rfl⟩
      exact h rfl rfl rfl

/-- Evaluation keeps the order of facts where divisions are steady. -/
theorem eval_mono (hfg : f.leq g = true) (hsteady : e.dividesSteadily f g = true)
    (hv : e.eval f = .ok v) (hw : e.eval g = .ok w) : v.leq w = true := by
  induction e using eval.induct generalizing v w with
  | case1 n =>
    cases hv
    cases hw
    exact Value.leq_refl _
  | case2 x =>
    cases hv
    cases hw
    exact Constants.leq_iff.mp hfg x
  | case3 op l r ihl ihr =>
    obtain ⟨a, b, ha, hb, hv⟩ := eval_bin_eq hv
    obtain ⟨a', b', ha', hb', hw⟩ := eval_bin_eq hw
    obtain ⟨hl, hr, hop⟩ := (dividesSteadily_bin ha hb hb').mp hsteady
    exact (BinOp.onValues_leq_iff (ihl hl ha ha') (ihr hr hb hb') hv hw).mpr hop
  | case4 e hlit hvar hbin =>
    rw [eval.eq_4 g e hlit hvar hbin] at hw
    cases hw
    exact Value.leq_nac v

/-- Divisions that are safe under a fact are steady below it. -/
theorem dividesSteadily_of_safely (hfg : f.leq g = true) (hsafe : e.dividesSafely g = true)
    (hv : e.eval f = .ok v) (hw : e.eval g = .ok w) : e.dividesSteadily f g = true := by
  induction e using eval.induct generalizing v w with
  | case3 op l r ihl ihr =>
    rw [dividesSafely, Bool.and_eq_true, Bool.and_eq_true] at hsafe
    obtain ⟨⟨hl, hr⟩, hsafe⟩ := hsafe
    obtain ⟨a, b, ha, hb, -⟩ := eval_bin_eq hv
    obtain ⟨a', b', ha', hb', -⟩ := eval_bin_eq hw
    have hlsteady := ihl hl ha ha'
    refine (dividesSteadily_bin ha hb hb').mpr ⟨hlsteady, ihr hr hb hb', ?_⟩
    rintro ⟨hop, rfl, rfl, rfl⟩
    obtain rfl := Value.nac_leq.mp (eval_mono hfg hlsteady ha ha')
    -- only a literal may be the divisor here, and a literal is never undefined
    rw [ha', hb', hop] at hsafe
    cases r with
    | lit n => cases hb
    | _ => cases hsafe
  | _ => simp_all [dividesSteadily]

end Expr

theorem Action.defines?_of_definition? {τ : Type} {a : Action τ} {x : Var} {e : Expr}
    (h : a.definition? = some (some (.var x), e)) : a.defines? = some x := by
  cases a with
  | assign place value =>
    cases h
    rfl
  | invoke place call =>
    cases h
    rfl
  | _ => cases h

namespace Stmt
variable {s : Stmt Nat} {x : Var} {e : Expr}

/-- The tracked variable that a statement defines, and its right-hand side. -/
def tracked? (s : Stmt Nat) : Option (Var × Expr) :=
  match s.action.definition? with
  | some (some (.var x), e) => if x.holdsInt then some (x, e) else none
  | _ => none

theorem tracked?_eq_some_iff : s.tracked? = some (x, e) ↔
    s.action.definition? = some (some (.var x), e) ∧ x.holdsInt = true := by
  unfold tracked?
  split
  · next y d hd =>
    rw [hd]
    constructor
    · intro h
      split at h
      · next hy =>
        cases h
        exact ⟨rfl, hy⟩
      · cases h
    · rintro ⟨h, hx⟩
      cases h
      exact if_pos hx
  · next hne =>
    constructor
    · exact nofun
    · rintro ⟨h, -⟩
      exact absurd h (hne x e)

def dividesSafely (s : Stmt Nat) (known : Constants) : Bool :=
  s.tracked?.all fun p => p.2.dividesSafely known

def dividesSteadily (s : Stmt Nat) (f g : Constants) : Bool :=
  s.tracked?.all fun p => p.2.dividesSteadily f g

end Stmt

namespace Constants
variable {f g t : Constants}

theorem valid_empty : Valid .empty := ⟨FactMap.canonical_empty, by simp, fun _ => nofun⟩

theorem Valid.update (hf : f.Valid) {x : Var} (hx : x.holdsInt = true) {v : Value}
    (hv : v.IsWord) : Constants.Valid (f.update x v).1 := by
  constructor
  · exact hf.canonical.update x v
  · intro y hy
    rw [get_update] at hy
    split at hy
    · next h => exact h ▸ hx
    · exact hf.tracked y hy
  · intro y
    rw [get_update]
    split
    · exact hv
    · exact hf.words y

theorem Valid.merge (hf : f.Valid) (ht : t.Valid) : (f.merge t).Valid := by
  constructor
  · exact canonical_merge f ht.canonical
  · intro x hx
    exact (ne_undef_of_merge hf.canonical hx).elim (hf.tracked x) (ht.tracked x)
  · intro x n hn
    rw [get_merge hf.canonical] at hn
    exact (Value.eq_const_of_meet hn).elim (hf.words x n) (ht.words x n)

end Constants

namespace ConstantPropagation
variable {f g : Constants} {s : Stmt Nat} {h k : Constants}

theorem boundary_valid (m : Method) : (boundary m).Valid := by
  have hfold : ∀ (xs : List Var) (f : Constants), f.Valid →
      (xs.foldl (fun f x => if x.holdsInt then (f.update x .nac).1 else f) f).Valid := by
    intro xs
    induction xs with
    | nil => exact fun f hf => hf
    | cons x xs ih =>
      intro f hf
      apply ih
      dsimp only
      split
      · next hx => exact hf.update hx nofun
      · exact hf
  exact hfold m.params .empty Constants.valid_empty

theorem get_boundary {m : Method} {x : Var} (hp : x ∈ m.params) (hx : x.holdsInt = true) :
    (boundary m).get x = .nac := by
  have hfold : ∀ (xs : List Var) (f : Constants), x ∈ xs ∨ f.get x = .nac →
      (xs.foldl (fun f x => if x.holdsInt then (f.update x .nac).1 else f) f).get x = .nac := by
    intro xs
    induction xs with
    | nil => exact fun f h => h.resolve_left List.not_mem_nil
    | cons y xs ih =>
      intro f h
      apply ih
      dsimp only
      by_cases hy : x = y
      · subst hy
        right
        rw [if_pos hx, Constants.get_update, if_pos rfl]
      · rw [List.mem_cons] at h
        refine (h.imp_left fun h => h.resolve_left hy).imp_right fun h => ?_
        split
        · rw [Constants.get_update, if_neg hy]
          exact h
        · exact h
  exact hfold m.params .empty (.inl hp)

theorem mem_params_of_get_boundary {m : Method} {x : Var} (h : (boundary m).get x ≠ .undef) :
    x ∈ m.params := by
  have hfold : ∀ (xs : List Var) (f : Constants),
      (xs.foldl (fun f x => if x.holdsInt then (f.update x .nac).1 else f) f).get x ≠ .undef →
      x ∈ xs ∨ f.get x ≠ .undef := by
    intro xs
    induction xs with
    | nil => exact fun f h => .inr h
    | cons y xs ih =>
      intro f h
      by_cases hy : x = y
      · exact .inl (hy ▸ List.mem_cons_self)
      · refine (ih _ h).imp (List.mem_cons_of_mem _) fun h => ?_
        dsimp only at h
        split at h
        · rwa [Constants.get_update, if_neg hy] at h
        · exact h
  exact (hfold m.params .empty h).resolve_right fun h => h (Constants.get_empty x)

theorem transfer_of_some {x : Var} {e : Expr} (h : s.tracked? = some (x, e)) (f : Constants) :
    transfer s f = (e.eval f).map fun v => (f.update x v).1 := by
  obtain ⟨hd, hx⟩ := Stmt.tracked?_eq_some_iff.mp h
  rw [transfer, hd]
  exact if_pos hx

theorem transfer_of_none (h : s.tracked? = none) (f : Constants) : transfer s f = .ok f := by
  rw [transfer]
  split
  · next x e hd =>
    refine if_neg fun hx => ?_
    rw [Stmt.tracked?_eq_some_iff.mpr ⟨hd, hx⟩] at h
    cases h
  · rfl

theorem transfer_valid (s : Stmt Nat) (hf : f.Valid) : ∃ h, transfer s f = .ok h ∧ h.Valid := by
  cases ht : s.tracked? with
  | some p =>
    obtain ⟨x, e⟩ := p
    obtain ⟨v, hv, hw⟩ := e.eval_word hf.words
    rw [transfer_of_some ht, hv]
    exact ⟨_, rfl, hf.update (Stmt.tracked?_eq_some_iff.mp ht).2 hw⟩
  | none => exact ⟨f, transfer_of_none ht f, hf⟩

theorem lawful :
    analysis.Lawful Constants.Valid (fun f g => f.leq g = true) where
  refl := Constants.leq_refl
  trans := Constants.leq_trans
  initial_le := Constants.empty_leq
  initial_valid := Constants.valid_empty
  boundary_valid := boundary_valid
  merge_valid := Constants.Valid.merge
  le_merge_left hf _ := Constants.leq_merge_left hf.canonical _
  le_merge_right hf _ := Constants.leq_merge_right hf.canonical _
  merge_le hf _ := Constants.merge_leq hf.canonical
  transfer_valid s _ := transfer_valid s
  same_iff hf hg := Constants.sameEntries_iff hf.canonical hg.canonical

/-- The transfer does not tell facts apart that give all variables the same values. -/
theorem transfer_congr (hfg : f.leq g = true) (hgf : g.leq f = true)
    (hh : transfer s f = .ok h) (hk : transfer s g = .ok k) : h.leq k = true := by
  have hget : ∀ x, f.get x = g.get x := fun x =>
    Value.leq_antisymm (Constants.leq_iff.mp hfg x) (Constants.leq_iff.mp hgf x)
  cases ht : s.tracked? with
  | some p =>
    obtain ⟨x, e⟩ := p
    rw [transfer_of_some ht, e.eval_congr hget] at hh
    rw [transfer_of_some ht] at hk
    obtain ⟨v, hv, rfl⟩ := exists_of_map hh
    obtain ⟨w, hw, rfl⟩ := exists_of_map hk
    obtain rfl := Except.ok.inj (hv.symm.trans hw)
    exact (Constants.update_leq_iff hfg).mpr (Value.leq_refl v)
  | none =>
    rw [transfer_of_none ht] at hh hk
    cases hh
    cases hk
    exact hfg

/-- The transfer gives a value at most to the variable that a statement defines. -/
theorem get_transfer {x : Var} (hh : transfer s f = .ok h) (hx : h.get x ≠ .undef) :
    f.get x ≠ .undef ∨ s.action.defines? = some x := by
  cases ht : s.tracked? with
  | some p =>
    obtain ⟨y, e⟩ := p
    rw [transfer_of_some ht] at hh
    obtain ⟨v, -, rfl⟩ := exists_of_map hh
    rw [Constants.get_update] at hx
    split at hx
    · next hxy =>
      subst hxy
      exact .inr (Action.defines?_of_definition? (Stmt.tracked?_eq_some_iff.mp ht).1)
    · exact .inl hx
  | none =>
    rw [transfer_of_none ht] at hh
    cases hh
    exact .inl hx

/-- The transfer keeps the order of facts where divisions are steady. -/
theorem transfer_mono (hfg : f.leq g = true) (hsteady : s.dividesSteadily f g = true)
    (hh : transfer s f = .ok h) (hk : transfer s g = .ok k) : h.leq k = true := by
  cases ht : s.tracked? with
  | some p =>
    obtain ⟨x, e⟩ := p
    rw [transfer_of_some ht] at hh hk
    obtain ⟨v, hv, rfl⟩ := exists_of_map hh
    obtain ⟨w, hw, rfl⟩ := exists_of_map hk
    rw [Stmt.dividesSteadily, ht] at hsteady
    exact (Constants.update_leq_iff hfg).mpr (Expr.eval_mono hfg hsteady hv hw)
  | none =>
    rw [transfer_of_none ht] at hh hk
    cases hh
    cases hk
    exact hfg

theorem dividesSteadily_of_safely (hfg : f.leq g = true) (hsafe : s.dividesSafely g = true)
    (hh : transfer s f = .ok h) (hk : transfer s g = .ok k) : s.dividesSteadily f g = true := by
  cases ht : s.tracked? with
  | some p =>
    obtain ⟨x, e⟩ := p
    rw [transfer_of_some ht] at hh hk
    obtain ⟨v, hv, -⟩ := exists_of_map hh
    obtain ⟨w, hw, -⟩ := exists_of_map hk
    rw [Stmt.dividesSafely, ht] at hsafe
    rw [Stmt.dividesSteadily, ht]
    exact Expr.dividesSteadily_of_safely hfg hsafe hv hw
  | none =>
    rw [Stmt.dividesSteadily, ht]
    rfl

section
variable {g : Graph}

theorem before_valid {s : Strategy} {bound : Int} {r : Solution Constants} (hg : g.Consistent)
    (hr : solve analysis s bound g = .ok r) (n : Node) : (r.before n).Valid := by
  rw [Solution.before_forward (solve_eq hr).1]
  exact (solve_valid lawful hg hr n).1

/-- The transfer respects every solution under which divisions are safe. -/
theorem respects {consumed produced : Node → Constants}
    (h : analysis.IsSolution (fun f g => f.leq g = true) g consumed produced)
    (hsafe : ∀ n ∈ g.nodes, (g.method.stmtAt n).dividesSafely (consumed n) = true) :
    analysis.Respects Constants.Valid (fun f g => f.leq g = true) g consumed produced := by
  intro n hn f k _ hf hk hs
  obtain ⟨w, hw, hle⟩ := h.transfer_le n hn hs
  have hsteady := dividesSteadily_of_safely hf (hsafe n hn) hk hw
  exact Constants.leq_trans (transfer_mono hf hsteady hk hw) hle

end

end ConstantPropagation

end FlowLint
