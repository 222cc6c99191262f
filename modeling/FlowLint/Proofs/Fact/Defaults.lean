import FlowLint.Fact.Scalar
import FlowLint.Proofs.Fact.Map
import Mathlib.Logic.Function.Basic
import Mathlib.Tactic.Tauto

/-! # Map facts of any default

Scalar maps, each with a default of its own, are made, changed and copied under names. A map stores
its own default only when the entries of a map with another default have been copied into it. A
change is reported when it shows, with one exception: what is stored is taken for null when nothing
is stored, so a key that goes between null and another default is not reported. Maps whose default
is null have neither flaw.
-/
namespace FlowLint

/-- Every value is the same as itself, and sameness does not depend on the order. -/
class LawfulFactValue (ν : Type) [FactValue ν] : Prop where
  same_refl (v : ν) : FactValue.same v v = true
  same_comm (v w : ν) : FactValue.same v w = FactValue.same w v

namespace Scalar
variable {a b : Scalar}

/-- A scalar with a number in the place of a truth value. -/
def normal : Scalar → Scalar
  | bool b => int (if b then 1 else 0)
  | s => s

theorem same_iff_normal : a.same b = true ↔ a.normal = b.normal := by
  cases a <;> cases b <;> simp [same, number?, normal]

instance : LawfulFactValue Scalar where
  same_refl _ := same_iff_normal.mpr rfl
  same_comm a b := by
    have hcomm : a.same b = true ↔ b.same a = true := by
      rw [same_iff_normal, same_iff_normal, eq_comm]
    exact Bool.eq_iff_iff.mpr hcomm

theorem isNull_eq_same (a : Scalar) : FactValue.isNull a = a.same null := by
  cases a <;> rfl

theorem isNull_iff : FactValue.isNull a = true ↔ a = null := beq_iff_eq

end Scalar

namespace FactMap
variable {κ ν : Type} [BEq κ] [LawfulBEq κ] [FactValue ν] {d e : ν} {f g : FactMap κ ν d} {k : κ}
  {v : ν}

/-- Some key has another value. -/
def Differs (f g : FactMap κ ν d) : Prop := ∃ k, FactValue.same (f.get k) (g.get k) = false

/-- A change is reported exactly if it shows. -/
def ReportsExactly (f : FactMap κ ν d) (r : FactMap κ ν d × Bool) : Prop :=
  r.2 = true ↔ f.Differs r.1

section Lawful
variable [LawfulFactValue ν]

/-- A fact in which one key has been given a value differs if the key had another one. -/
theorem differs_iff {w : ν} (h : ∀ y, g.get y = if y == k then w else f.get y) :
    f.Differs g ↔ FactValue.same (f.get k) w = false := by
  constructor
  · rintro ⟨y, hy⟩
    rw [h] at hy
    split at hy
    · next hyk =>
      rwa [eq_of_beq hyk] at hy
    · rw [LawfulFactValue.same_refl] at hy
      cases hy
  · intro hw
    refine ⟨k, ?_⟩
    rw [h, if_pos (beq_self_eq_true k)]
    exact hw

/-- A removal is reported exactly unless null and the default disagree on what is stored. -/
theorem remove_reportsExactly_iff (f : FactMap κ ν d) (k : κ) : f.ReportsExactly (f.remove k) ↔
    ∀ v, f.find? k = some v → FactValue.isNull v = FactValue.same v d := by
  rw [ReportsExactly, differs_iff (get_remove f k), remove, get]
  cases f.find? k with
  | none => simp [LawfulFactValue.same_refl]
  | some v => cases hn : FactValue.isNull v <;> cases hs : FactValue.same v d <;> simp [hn, hs]

theorem update_default_reportsExactly_iff (f : FactMap κ ν d) (k : κ)
    (hv : FactValue.same v d = true) : f.ReportsExactly (f.update k v) ↔
      ∀ w, f.find? k = some w → FactValue.isNull w = FactValue.same w d := by
  rw [← remove_reportsExactly_iff, update, if_pos hv]

/-- A binding is reported exactly unless it gives null to a key that nothing is stored for. -/
theorem update_reportsExactly_iff (f : FactMap κ ν d) (k : κ) (hv : FactValue.same v d = false) :
    f.ReportsExactly (f.update k v) ↔ (FactValue.isNull v = true → f.contains k = true) := by
  have hget : ∀ y, (f.update k v).1.get y = if y == k then v else f.get y := by
    intro y
    rw [get_update, hv]
    rfl
  rw [ReportsExactly, differs_iff hget, update, hv, if_neg Bool.false_ne_true, get, contains]
  cases f.find? k with
  | none =>
    have hd : FactValue.same d v = false := (LawfulFactValue.same_comm d v).trans hv
    cases FactValue.isNull v <;> simp [hd]
  | some old => simp

/-- A copy of other entries is reported exactly unless all that changes is where the default is
stored. -/
theorem replace_reportsExactly_iff {g : FactMap κ ν e} (hf : f.keys.Nodup) (hg : g.keys.Nodup) :
    f.ReportsExactly (f.replaceWith g) ↔
      (f.Differs (f.replaceWith g).1 ∨ ∀ k, f.contains k = g.contains k) := by
  have hget : ∀ k, (f.replaceWith g).1.get k = (g.find? k).getD d := fun _ => rfl
  have hflag : (f.replaceWith g).2 = true ↔ ¬f.sameEntries g = true := by
    rw [replaceWith, Bool.not_eq_true', Bool.not_eq_true]
  have hsame : f.sameEntries g = true ↔
      ¬f.Differs (f.replaceWith g).1 ∧ ∀ k, f.contains k = g.contains k := by
    rw [sameEntries_iff hf hg, and_comm]
    refine and_congr_left fun hcontains => ?_
    rw [Differs, not_exists]
    refine forall_congr' fun k => ?_
    have hk := hcontains k
    rw [contains, contains] at hk
    rw [hget, get, Bool.not_eq_false]
    cases hv : f.find? k <;> cases hw : g.find? k <;> simp_all [LawfulFactValue.same_refl]
  rw [ReportsExactly, hflag, hsame]
  tauto

/-- A copy that brings no default is reported as it shows: a key that gets or loses an entry gets
another value. -/
theorem Canonical.replace_reportsExactly {g : FactMap κ ν e} (hf : f.Canonical)
    (hfg : (f.replaceWith g).1.Canonical) : f.ReportsExactly (f.replaceWith g) := by
  have hg : g.keys.Nodup := hfg.nodup
  refine (replace_reportsExactly_iff hf.nodup hg).mpr (or_iff_not_imp_left.mpr fun h k => ?_)
  have hsame : FactValue.same (f.get k) ((f.replaceWith g).1.get k) = true := by
    rw [← Bool.not_eq_false]
    exact fun hk => h ⟨k, hk⟩
  have hget : (f.replaceWith g).1.get k = (g.find? k).getD d := rfl
  rw [hget, get] at hsame
  rw [contains, contains]
  cases hv : f.find? k with
  | none =>
    cases hw : g.find? k with
    | none => rfl
    | some w =>
      rw [hv, hw, LawfulFactValue.same_comm] at hsame
      exact absurd hsame (Bool.eq_false_iff.mp (hfg.stored _ (mem_of_find? hw)))
  | some v =>
    cases hw : g.find? k with
    | some w => rfl
    | none =>
      rw [hv, hw] at hsame
      exact absurd hsame (Bool.eq_false_iff.mp (hf.stored _ (mem_of_find? hv)))

end Lawful

end FactMap

/-- Scalars under keys, with a default for the other keys. -/
structure ScalarMap (κ : Type) where
  default : Scalar
  fact : FactMap κ Scalar default

namespace ScalarMap
variable {ι κ : Type} [DecidableEq ι] [BEq κ] [LawfulBEq κ]

/-- An operation on maps that are kept under names. -/
inductive Op (ι κ : Type) where
  | make (i : ι) (default : Scalar) (bindings : List (κ × Scalar))
  | update (i : ι) (k : κ) (v : Scalar)
  | remove (i : ι) (k : κ)
  /-- A new map that is a copy of another one, with its default. -/
  | copy (j i : ι)
  /-- Gives a map the entries of another one. It keeps its default. -/
  | replace (j i : ι)
  | clear (i : ι)

namespace Op

/-- The name of the map that an operation makes or changes. -/
def target : Op ι κ → ι
  | make i .. | update i .. | remove i _ | copy _ i | replace _ i | clear i => i

/-- What an operation leaves under its target. -/
def result (σ : ι → ScalarMap κ) : Op ι κ → ScalarMap κ
  | make _ d bindings => ⟨d, .ofList bindings⟩
  | update i k v => ⟨(σ i).default, ((σ i).fact.update k v).1⟩
  | remove i k => ⟨(σ i).default, ((σ i).fact.remove k).1⟩
  | copy j _ => σ j
  | replace j i => ⟨(σ i).default, ((σ i).fact.replaceWith (σ j).fact).1⟩
  | clear i => ⟨(σ i).default, (σ i).fact.clear⟩

def apply (σ : ι → ScalarMap κ) (op : Op ι κ) : ι → ScalarMap κ :=
  Function.update σ op.target (op.result σ)

def run (ops : List (Op ι κ)) (σ : ι → ScalarMap κ) : ι → ScalarMap κ := ops.foldl apply σ

/-- The entries that an operation copies hold no default of the map that gets them. -/
def Admissible (σ : ι → ScalarMap κ) : Op ι κ → Prop
  | replace j i => ∀ b ∈ (σ j).fact.entries, b.2.same (σ i).default = false
  | _ => True

end Op

/-- Nothing but maps without entries, which have null for a default. -/
def fresh : ι → ScalarMap κ := fun _ => ⟨.null, .empty⟩

namespace Op
variable {σ : ι → ScalarMap κ} {op : Op ι κ}

omit [DecidableEq ι] in
theorem result_nodup (hσ : ∀ k, (σ k).fact.keys.Nodup) (op : Op ι κ) :
    (op.result σ).fact.keys.Nodup := by
  cases op with
  | make i d bindings => exact (FactMap.canonical_ofList bindings).nodup
  | update i k v => exact FactMap.nodup_keys_update (hσ i) k v
  | remove i k => exact FactMap.nodup_keys_remove (hσ i) k
  | copy j i => exact hσ j
  | replace j i => exact hσ j
  | clear i => exact List.nodup_nil

omit [DecidableEq ι] in
/-- An operation leaves a canonical map unless it copies the default of its target. -/
theorem result_canonical_iff (hσ : ∀ k, (σ k).fact.Canonical) (op : Op ι κ) :
    (op.result σ).fact.Canonical ↔ op.Admissible σ := by
  cases op with
  | make i d bindings => exact iff_of_true (FactMap.canonical_ofList bindings) trivial
  | update i k v => exact iff_of_true ((hσ i).update k v) trivial
  | remove i k => exact iff_of_true ((hσ i).remove k) trivial
  | copy j i => exact iff_of_true (hσ j) trivial
  | replace j i => exact ⟨fun h => h.stored, fun h => ⟨(hσ j).nodup, h⟩⟩
  | clear i => exact iff_of_true FactMap.canonical_empty trivial

theorem apply_nodup (hσ : ∀ k, (σ k).fact.keys.Nodup) (op : Op ι κ) (k : ι) :
    (apply σ op k).fact.keys.Nodup :=
  (Function.forall_update_iff σ fun _ m => m.fact.keys.Nodup).mpr
    ⟨result_nodup hσ op, fun k _ => hσ k⟩ k

theorem apply_canonical_iff (hσ : ∀ k, (σ k).fact.Canonical) (op : Op ι κ) :
    (∀ k, (apply σ op k).fact.Canonical) ↔ op.Admissible σ := by
  rw [← result_canonical_iff hσ op]
  refine (Function.forall_update_iff σ fun _ m => m.fact.Canonical).trans ?_
  exact and_iff_left fun k _ => hσ k

theorem run_nodup (hσ : ∀ k, (σ k).fact.keys.Nodup) (ops : List (Op ι κ)) (k : ι) :
    (run ops σ k).fact.keys.Nodup := by
  induction ops generalizing σ with
  | nil => exact hσ k
  | cons op ops ih => exact ih (apply_nodup hσ op)

omit [LawfulBEq κ] in
theorem run_take_succ {ops : List (Op ι κ)} {n : ℕ} (h : ops[n]? = some op) :
    run (ops.take (n + 1)) σ = apply (run (ops.take n) σ) op := by
  rw [run, run, List.take_add_one, h, Option.toList_some, List.foldl_append]
  rfl

/-- The maps of a run are canonical all the time exactly if all that it copies is admissible. -/
theorem run_canonical_iff (hσ : ∀ k, (σ k).fact.Canonical) (ops : List (Op ι κ)) :
    (∀ n k, (run (ops.take n) σ k).fact.Canonical) ↔
      ∀ n (op : Op ι κ), ops[n]? = some op → op.Admissible (run (ops.take n) σ) := by
  constructor
  · intro hrun n op hop
    rw [← apply_canonical_iff (hrun n), ← run_take_succ hop]
    exact hrun (n + 1)
  · intro hall n
    induction n with
    | zero => exact hσ
    | succ n ih =>
      cases hop : ops[n]? with
      | none =>
        have hlen : ops.length ≤ n := List.getElem?_eq_none_iff.mp hop
        rw [List.take_of_length_le hlen] at ih
        rwa [List.take_of_length_le (Nat.le_succ_of_le hlen)]
      | some op =>
        rw [run_take_succ hop]
        exact (apply_canonical_iff ih op).mpr (hall n op hop)

/-- Maps that have null for a default, and store no null, stay so if no other default is given. -/
theorem run_null (ops : List (Op ι κ)) (hops : ∀ i d bindings, make i d bindings ∈ ops → d = .null)
    (hσ : ∀ k, (σ k).default = .null ∧ (σ k).fact.Canonical) (k : ι) :
    (run ops σ k).default = .null ∧ (run ops σ k).fact.Canonical := by
  induction ops generalizing σ with
  | nil => exact hσ k
  | cons op ops ih =>
    refine ih (fun i d bindings h => hops i d bindings (List.mem_cons_of_mem _ h)) fun k => ?_
    have hdefault : (op.result σ).default = .null := by
      cases op with
      | make i d bindings => exact hops i d bindings List.mem_cons_self
      | copy j i => exact (hσ j).1
      | update i _ _ | remove i _ | replace _ i | clear i => exact (hσ i).1
    have hadmissible : op.Admissible σ := by
      cases op with
      | replace j i =>
        intro b hb
        rw [(hσ i).1, ← (hσ j).1]
        exact (hσ j).2.stored b hb
      | _ => trivial
    refine ⟨?_, (apply_canonical_iff (fun k => (hσ k).2) op).mpr hadmissible k⟩
    exact (Function.forall_update_iff σ fun _ m => m.default = .null).mpr
      ⟨hdefault, fun k _ => (hσ k).1⟩ k

end Op

/-- What holds of maps under names, whatever has been copied: exactly which changes are reported as
they show. -/
structure Reports (σ : ι → ScalarMap κ) : Prop where
  nodup : ∀ i, (σ i).fact.keys.Nodup
  remove_iff : ∀ i k, (σ i).fact.ReportsExactly ((σ i).fact.remove k) ↔
    ∀ v, (σ i).fact.find? k = some v → v.same .null = v.same (σ i).default
  /-- A key gets the default by being removed. -/
  update_default_iff : ∀ i k v, v.same (σ i).default = true →
    ((σ i).fact.ReportsExactly ((σ i).fact.update k v) ↔
      ∀ w, (σ i).fact.find? k = some w → w.same .null = w.same (σ i).default)
  update_iff : ∀ i k v, v.same (σ i).default = false →
    ((σ i).fact.ReportsExactly ((σ i).fact.update k v) ↔
      (v = .null → (σ i).fact.contains k = true))
  replace_iff : ∀ j i, (σ i).fact.ReportsExactly ((σ i).fact.replaceWith (σ j).fact) ↔
    ((σ i).fact.Differs ((σ i).fact.replaceWith (σ j).fact).1 ∨
      ∀ k, (σ i).fact.contains k = (σ j).fact.contains k)

omit [DecidableEq ι] in
theorem reports_of_nodup {σ : ι → ScalarMap κ} (hσ : ∀ i, (σ i).fact.keys.Nodup) : Reports σ where
  nodup := hσ
  remove_iff i k := by
    rw [FactMap.remove_reportsExactly_iff]
    simp only [Scalar.isNull_eq_same]
    rfl
  update_default_iff i k v hv := by
    rw [FactMap.update_default_reportsExactly_iff _ _ hv]
    simp only [Scalar.isNull_eq_same]
    rfl
  update_iff i k v hv := by
    rw [FactMap.update_reportsExactly_iff _ _ hv, Scalar.isNull_iff]
  replace_iff j i := FactMap.replace_reportsExactly_iff (hσ i) (hσ j)

/-- A map that stores no default of its own and reports all changes as they show. -/
structure Keeps (σ : ι → ScalarMap κ) (i : ι) : Prop where
  canonical : (σ i).fact.Canonical
  remove : ∀ k, (σ i).fact.ReportsExactly ((σ i).fact.remove k)
  update : ∀ k v, (σ i).fact.ReportsExactly ((σ i).fact.update k v)
  replace : ∀ j, (σ i).fact.ReportsExactly ((σ i).fact.replaceWith (σ j).fact)

omit [DecidableEq ι] in
theorem keeps_of_null {σ : ι → ScalarMap κ}
    (hσ : ∀ i, (σ i).default = .null ∧ (σ i).fact.Canonical) (i : ι) : Keeps σ i := by
  have hreports := reports_of_nodup fun i => (hσ i).2.nodup
  have hstored : ∀ k v, (σ i).fact.find? k = some v → v.same .null = v.same (σ i).default := by
    intro k v _
    rw [(hσ i).1]
  refine ⟨(hσ i).2, fun k => (hreports.remove_iff i k).mpr (hstored k), fun k v => ?_, fun j => ?_⟩
  · cases hv : v.same (σ i).default with
    | true => exact (hreports.update_default_iff i k v hv).mpr (hstored k)
    | false =>
      refine (hreports.update_iff i k v hv).mpr fun hnull => ?_
      rw [(hσ i).1, hnull] at hv
      cases hv
  · refine (hσ i).2.replace_reportsExactly ⟨(hσ j).2.nodup, fun b hb => ?_⟩
    rw [(hσ i).1, ← (hσ j).1]
    exact (hσ j).2.stored b hb

/-- Whatever is done with maps, starting from fresh ones, they store no defaults of their own exactly
as long as none are copied into them, changes are reported exactly in the cases given, and maps whose
defaults are null are faultless. -/
theorem run_reports (ops : List (Op ι κ)) :
    ((∀ n i, (Op.run (ops.take n) fresh i).fact.Canonical) ↔
      ∀ n (op : Op ι κ), ops[n]? = some op → op.Admissible (Op.run (ops.take n) fresh)) ∧
    Reports (Op.run ops fresh) ∧
    ((∀ i d bindings, Op.make i d bindings ∈ ops → d = .null) →
      ∀ i, Keeps (Op.run ops fresh) i) := by
  have hfresh : ∀ i : ι, (fresh i : ScalarMap κ).fact.Canonical := fun _ => FactMap.canonical_empty
  refine ⟨Op.run_canonical_iff hfresh ops, ?_, fun hops => ?_⟩
  · exact reports_of_nodup (Op.run_nodup (fun i => (hfresh i).nodup) ops)
  · exact keeps_of_null (Op.run_null ops hops fun i => ⟨rfl, hfresh i⟩)

/-- Two maps with null for a default, one of which gets the entries of the other. -/
def nulls : List (Op ℕ String) :=
  [.make 0 .null [("a", .bool true)], .make 1 .null [("a", .int 1), ("b", .null)], .replace 1 0,
    .update 0 "b" (.str ""), .remove 0 "a"]

theorem nulls_keep : (∀ i d bindings, Op.make i d bindings ∈ nulls → d = .null) ∧
    ∀ i, Keeps (Op.run nulls fresh) i := by
  have hnulls : ∀ i d bindings, Op.make i d bindings ∈ nulls → d = .null := by
    intro i d bindings h
    simp only [nulls, List.mem_cons, Op.make.injEq, reduceCtorEq, List.not_mem_nil, or_false] at h
    rcases h with ⟨-, rfl, -⟩ | ⟨-, rfl, -⟩ <;> rfl
  exact ⟨hnulls, (run_reports nulls).2.2 hnulls⟩

/-- A map with the default zero, and one with the default one that binds a key to zero. -/
def zeroes : List (Op ℕ String) :=
  [.make 0 (.int 0) [], .make 1 (.int 1) [("a", .int 0)]]

/-- Where the default is zero, a key that gets null is not reported, and a copy stores the default. -/
theorem zeroes_misreport :
    ¬(Op.run zeroes fresh 0).fact.ReportsExactly
      ((Op.run zeroes fresh 0).fact.update "a" .null) ∧
    ¬(Op.run (zeroes ++ [.replace 1 0]) fresh 0).fact.Canonical := by
  constructor
  · intro hexact
    have hdiffers : (Op.run zeroes fresh 0).fact.Differs
        ((Op.run zeroes fresh 0).fact.update "a" .null).1 := ⟨"a", by decide +kernel⟩
    have hsilent : ((Op.run zeroes fresh 0).fact.update "a" .null).2 = false := by decide +kernel
    rw [hexact.mpr hdiffers] at hsilent
    cases hsilent
  · intro hcanonical
    have hstored : ("a", .int 0) ∈ (Op.run (zeroes ++ [.replace 1 0]) fresh 0).fact.entries := by
      decide +kernel
    exact absurd (hcanonical.stored _ hstored) (by decide +kernel)

end ScalarMap

end FlowLint
