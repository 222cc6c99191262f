import FlowLint.Proofs.Fact.Constants
import Mathlib.Logic.Function.Basic

/-! # Constants facts under any operations

Facts are made, changed and met under names, and look-up says what each operation does. Whatever the
operations, no fact ever stores the undefined value. So comparison, look-up and order tell the same
facts apart, changes are reported exactly, and a fact into which others have been met is the least
one above all of them.
-/
namespace FlowLint.Constants
variable {f g : Constants} {x : Var} {v : Value}

theorem get_remove (f : Constants) (x y : Var) :
    (f.remove x).1.get y = if y = x then .undef else f.get y := by
  rw [FactMap.get_remove]
  exact if_congr beq_iff_eq rfl rfl

/-- A fact in which one variable has been given a value differs if it had another value. -/
theorem exists_get_ne_iff (h : ∀ y, g.get y = if y = x then v else f.get y) :
    (∃ y, g.get y ≠ f.get y) ↔ f.get x ≠ v := by
  constructor
  · rintro ⟨y, hy⟩ hx
    rw [h] at hy
    split at hy
    · next hyx => exact hy (hyx ▸ hx.symm)
    · exact hy rfl
  · intro hx
    refine ⟨x, ?_⟩
    rw [h, if_pos rfl]
    exact hx.symm

theorem remove_changed (hf : f.Canonical) (x : Var) :
    (f.remove x).2 = true ↔ ∃ y, (f.remove x).1.get y ≠ f.get y := by
  rw [exists_get_ne_iff (get_remove f x), FactMap.remove, FactMap.get]
  cases hx : f.find? x with
  | none => simp
  | some v =>
    have hv := ((hf.find?_eq_some_iff Value.same_iff).mp hx).2
    exact iff_of_true rfl hv

theorem update_changed (hf : f.Canonical) (x : Var) (v : Value) :
    (f.update x v).2 = true ↔ ∃ y, (f.update x v).1.get y ≠ f.get y := by
  rw [exists_get_ne_iff (get_update f x · v), FactMap.update]
  split
  · next hv =>
    -- the undefined value is given by removing the variable
    rw [remove_changed hf, exists_get_ne_iff (get_remove f x), (Value.same_iff v .undef).mp hv]
  · next hv =>
    have hne : v ≠ .undef := fun he => hv ((Value.same_iff v .undef).mpr he)
    rw [FactMap.get]
    cases hx : f.find? x with
    | none => exact iff_of_true rfl hne.symm
    | some old =>
      rw [Bool.not_eq_true', ← Bool.not_eq_true, Value.same_iff]
      rfl

theorem same_iff_get (hf : f.Canonical) (hg : g.Canonical) :
    f.same g = true ↔ ∀ x, f.get x = g.get x := by
  rw [← hf.sameEntries_iff_get Value.same_iff hg, FactMap.same, Bool.and_eq_true]
  exact and_iff_right rfl

theorem same_iff_leq (hf : f.Canonical) (hg : g.Canonical) :
    f.same g = true ↔ f.leq g = true ∧ g.leq f = true := by
  rw [← sameEntries_iff hf hg, FactMap.same, Bool.and_eq_true]
  exact and_iff_right rfl

theorem replace_changed (hf : f.Canonical) (hg : g.Canonical) :
    (f.replaceWith g).2 = true ↔ ∃ y, (f.replaceWith g).1.get y ≠ f.get y := by
  have hsame := hf.sameEntries_iff_get Value.same_iff hg
  rw [FactMap.replaceWith, Bool.not_eq_true', ← Bool.not_eq_true, hsame, not_forall]
  exact exists_congr fun y => not_congr eq_comm

/-- A merge is below exactly the facts that are above both parts. -/
theorem merge_leq_iff (hf : f.Canonical) {t u : Constants} :
    (f.merge t).leq u = true ↔ f.leq u = true ∧ t.leq u = true := by
  constructor
  · intro h
    exact ⟨leq_trans (leq_merge_left hf t) h, leq_trans (leq_merge_right hf t) h⟩
  · rintro ⟨hfu, htu⟩
    exact merge_leq hf hfu htu

/-- An operation on constants facts that are kept under names. -/
inductive Op (ι : Type) where
  | make (i : ι) (bindings : List (Var × Value))
  | update (i : ι) (x : Var) (v : Value)
  | remove (i : ι) (x : Var)
  /-- A new fact that is a copy of another one. -/
  | copy (j i : ι)
  /-- Gives a fact the bindings of another one. -/
  | replace (j i : ι)
  | clear (i : ι)
  /-- Meets a fact into another one. -/
  | meet (j i : ι)

namespace Op
variable {ι : Type}

/-- The name of the fact that an operation makes or changes. -/
def target : Op ι → ι
  | make i _ | update i _ _ | remove i _ | copy _ i | replace _ i | clear i | meet _ i => i

/-- What an operation leaves under its target. -/
def result (σ : ι → Constants) : Op ι → Constants
  | make _ bindings => FactMap.ofList bindings
  | update i x v => ((σ i).update x v).1
  | remove i x => ((σ i).remove x).1
  | copy j _ => σ j
  | replace j i => ((σ i).replaceWith (σ j)).1
  | clear i => (σ i).clear
  | meet j i => (σ j).merge (σ i)

/-- The value that an operation leaves to a variable under its target. -/
def bound (σ : ι → Constants) : Op ι → Var → Value
  | make _ bindings, y => (bindings.reverse.lookup y).getD .undef
  | update i x v, y => if y = x then v else (σ i).get y
  | remove i x, y => if y = x then .undef else (σ i).get y
  | copy j _, y | replace j _, y => (σ j).get y
  | clear _, _ => .undef
  | meet j i, y => ((σ j).get y).meet ((σ i).get y)

variable [DecidableEq ι]

def apply (σ : ι → Constants) (op : Op ι) : ι → Constants :=
  Function.update σ op.target (op.result σ)

def run (ops : List (Op ι)) (σ : ι → Constants) : ι → Constants := ops.foldl apply σ

variable {σ : ι → Constants} {op : Op ι} {i j k : ι}

theorem apply_target (σ : ι → Constants) (op : Op ι) : apply σ op op.target = op.result σ :=
  Function.update_self ..

theorem apply_of_ne (h : k ≠ op.target) : apply σ op k = σ k := Function.update_of_ne h ..

section
variable (hσ : ∀ k, (σ k).Canonical)
include hσ

theorem apply_canonical (op : Op ι) (k : ι) : (apply σ op k).Canonical := by
  by_cases hk : k = op.target
  · rw [hk, apply_target]
    cases op with
    | make i bindings => exact FactMap.canonical_ofList bindings
    | update i x v => exact (hσ i).update x v
    | remove i x => exact (hσ i).remove x
    | copy j i => exact hσ j
    | replace j i => exact hσ j
    | clear i => exact FactMap.canonical_empty
    | meet j i => exact canonical_merge _ (hσ i)
  · rw [apply_of_ne hk]
    exact hσ k

/-- An operation gives the variables of its target their values and changes nothing else. -/
theorem get_apply (op : Op ι) (k : ι) (y : Var) :
    (apply σ op k).get y = if k = op.target then op.bound σ y else (σ k).get y := by
  split
  · next hk =>
    rw [hk, apply_target]
    cases op with
    | make i bindings => exact get_ofList bindings y
    | update i x v => exact get_update (σ i) x y v
    | remove i x => exact get_remove (σ i) x y
    | copy j i => rfl
    | replace j i => rfl
    | clear i => rfl
    | meet j i => exact get_merge (hσ j) (σ i) y
  · next hk => rw [apply_of_ne hk]

theorem run_canonical (ops : List (Op ι)) (k : ι) : (run ops σ k).Canonical := by
  induction ops generalizing σ with
  | nil => exact hσ k
  | cons op ops ih => exact ih (apply_canonical hσ op)

/-- A meet leaves a fact below the facts above both parts exactly if it was below them. -/
theorem apply_meet_leq_iff {u : Constants} (hj : (σ j).leq u = true) (hi : (σ i).leq u = true) :
    (apply σ (meet j i) k).leq u = true ↔ (σ k).leq u = true := by
  by_cases hk : k = i
  · subst hk
    have htarget : apply σ (meet j k) k = (σ j).merge (σ k) := apply_target σ (.meet j k)
    rw [htarget, merge_leq_iff (hσ j)]
    exact iff_of_true ⟨hj, hi⟩ hi
  · rw [apply_of_ne hk]

/-- What facts have been met into is below exactly the facts that are above all of them. -/
theorem run_meet_leq_iff (js : List ι) (i : ι) (u : Constants) :
    (run (js.map (meet · i)) σ i).leq u = true ↔
      (σ i).leq u = true ∧ ∀ j ∈ js, (σ j).leq u = true := by
  induction js generalizing σ with
  | nil => exact (and_iff_left nofun).symm
  | cons j js ih =>
    have htarget : apply σ (meet j i) i = (σ j).merge (σ i) := apply_target σ (.meet j i)
    have hrun := ih (apply_canonical hσ (.meet j i))
    rw [htarget, merge_leq_iff (hσ j)] at hrun
    rw [List.map_cons, List.forall_mem_cons, ← and_assoc, and_comm (a := (σ i).leq u = true)]
    refine hrun.trans (and_congr_right fun h => forall₂_congr fun k _ => ?_)
    exact apply_meet_leq_iff hσ h.1 h.2

end

end Op

/-- The laws of facts that are kept under names. Operations do to look-up what they say, and report
changes exactly. Facts form a join-semilattice up to equality, which look-up decides. -/
structure Semilattice {ι : Type} [DecidableEq ι] (σ : ι → Constants) : Prop where
  stored : ∀ k, ∀ b ∈ (σ k).entries, b.2 ≠ .undef
  get_apply : ∀ (op : Op ι) k y,
    (Op.apply σ op k).get y = if k = op.target then op.bound σ y else (σ k).get y
  same_iff_get : ∀ j k, (σ j).same (σ k) = true ↔ ∀ x, (σ j).get x = (σ k).get x
  same_iff_leq : ∀ j k,
    (σ j).same (σ k) = true ↔ (σ j).leq (σ k) = true ∧ (σ k).leq (σ j) = true
  update_changed : ∀ k x v, ((σ k).update x v).2 = true ↔
    ∃ y, ((σ k).update x v).1.get y ≠ (σ k).get y
  remove_changed : ∀ k x, ((σ k).remove x).2 = true ↔
    ∃ y, ((σ k).remove x).1.get y ≠ (σ k).get y
  replace_changed : ∀ j k, ((σ k).replaceWith (σ j)).2 = true ↔
    ∃ y, ((σ k).replaceWith (σ j)).1.get y ≠ (σ k).get y
  leq_refl : ∀ k, (σ k).leq (σ k) = true
  leq_trans : ∀ i j k, (σ i).leq (σ j) = true → (σ j).leq (σ k) = true → (σ i).leq (σ k) = true
  empty_leq : ∀ k, Constants.leq .empty (σ k) = true
  /-- A meet leaves all facts but its target as they are, and its source as it was even if that is
  the target. -/
  meet_others : ∀ j i k, k ≠ i → Op.apply σ (.meet j i) k = σ k
  meet_source : ∀ j i, (Op.apply σ (.meet j i) j).same (σ j) = true
  meet_above : ∀ j i, (σ j).leq (Op.apply σ (.meet j i) i) = true ∧
    (σ i).leq (Op.apply σ (.meet j i) i) = true
  meet_least : ∀ j i u, (σ j).leq u = true → (σ i).leq u = true →
    (Op.apply σ (.meet j i) i).leq u = true
  /-- Neither the order nor the multiplicity of meets into one fact matters. -/
  meets_same : ∀ (js ks : List ι) i, (∀ k, k ∈ js ↔ k ∈ ks) →
    (Op.run (js.map (.meet · i)) σ i).same (Op.run (ks.map (.meet · i)) σ i) = true

/-- Facts that store no undefined value obey the laws. -/
theorem semilattice_of_canonical {ι : Type} [DecidableEq ι] {σ : ι → Constants}
    (hσ : ∀ k, (σ k).Canonical) : Semilattice σ where
  stored k := (hσ k).ne_default Value.same_iff
  get_apply := Op.get_apply hσ
  same_iff_get j k := same_iff_get (hσ j) (hσ k)
  same_iff_leq j k := same_iff_leq (hσ j) (hσ k)
  update_changed k := update_changed (hσ k)
  remove_changed k := remove_changed (hσ k)
  replace_changed j k := replace_changed (hσ k) (hσ j)
  leq_refl k := leq_refl (σ k)
  leq_trans _ _ _ := leq_trans
  empty_leq k := empty_leq (σ k)
  meet_others _ _ _ hk := Op.apply_of_ne hk
  meet_source j i := by
    rw [same_iff_leq (Op.apply_canonical hσ (.meet j i) j) (hσ j)]
    by_cases hj : j = i
    · subst hj
      have hmeet : Op.apply σ (.meet j j) j = (σ j).merge (σ j) := Op.apply_target σ (.meet j j)
      rw [hmeet]
      exact ⟨merge_leq (hσ j) (leq_refl _) (leq_refl _), leq_merge_left (hσ j) _⟩
    · rw [Op.apply_of_ne hj]
      exact ⟨leq_refl _, leq_refl _⟩
  meet_above j i := by
    have hmeet : Op.apply σ (.meet j i) i = (σ j).merge (σ i) := Op.apply_target σ (.meet j i)
    rw [hmeet]
    exact ⟨leq_merge_left (hσ j) _, leq_merge_right (hσ j) _⟩
  meet_least j i u hj hi := by
    have hmeet : Op.apply σ (.meet j i) i = (σ j).merge (σ i) := Op.apply_target σ (.meet j i)
    rw [hmeet]
    exact merge_leq (hσ j) hj hi
  meets_same js ks i hmem := by
    -- both runs are below the same facts, each other among them
    have hbelow : ∀ u, (Op.run (js.map (.meet · i)) σ i).leq u = true ↔
        (Op.run (ks.map (.meet · i)) σ i).leq u = true := by
      intro u
      rw [Op.run_meet_leq_iff hσ, Op.run_meet_leq_iff hσ]
      simp only [hmem]
    rw [same_iff_leq (Op.run_canonical hσ _ i) (Op.run_canonical hσ _ i)]
    exact ⟨(hbelow _).mpr (leq_refl _), (hbelow _).mp (leq_refl _)⟩

/-- Whatever is done with constants facts, starting from empty ones, their laws hold. -/
theorem run_semilattice {ι : Type} [DecidableEq ι] (ops : List (Op ι)) :
    Semilattice (Op.run ops fun _ => .empty) :=
  semilattice_of_canonical (Op.run_canonical (fun _ => FactMap.canonical_empty) ops)

end FlowLint.Constants
