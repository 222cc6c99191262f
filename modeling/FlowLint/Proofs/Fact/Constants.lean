import FlowLint.Fact.Constants
import FlowLint.Proofs.Fact.Map

/-! # The order of constants facts

Facts are compared value by value. The merge of two facts is their least upper bound, and a fact
that a solver may hold binds variables of word type only, to words or to no constant at all.
-/
namespace FlowLint

namespace Value

@[simp] theorem leq_refl (v : Value) : v.leq v = true := leq_iff.mpr (.inr (.inr rfl))

@[simp] theorem undef_leq (v : Value) : undef.leq v = true := leq_iff.mpr (.inl rfl)

@[simp] theorem leq_nac (v : Value) : v.leq nac = true := leq_iff.mpr (.inr (.inl rfl))

@[simp] theorem const_leq_const {m n : Int} : (const m).leq (const n) = true ↔ m = n := by
  simp [leq_iff]

@[simp] theorem leq_undef {v : Value} : v.leq undef = true ↔ v = undef := by
  simp [leq_iff]

@[simp] theorem nac_leq {v : Value} : nac.leq v = true ↔ v = nac := by
  rw [leq_iff, eq_comm (a := nac) (b := v)]
  simp

theorem const_leq {n : Int} {v : Value} : (const n).leq v = true ↔ v = const n ∨ v = nac := by
  rw [leq_iff, eq_comm (a := const n) (b := v), or_comm (a := v = nac)]
  simp

/-- A value that says something is below no other one that does. -/
theorem eq_of_leq {v w : Value} (h : v.leq w = true) (hv : v ≠ undef) (hw : w ≠ nac) : v = w :=
  ((leq_iff.mp h).resolve_left hv).resolve_left hw

theorem ne_nac_of_leq {v w : Value} (h : v.leq w = true) (hw : w ≠ nac) : v ≠ nac := by
  rintro rfl
  exact hw (nac_leq.mp h)

theorem exists_const {v : Value} (hu : v ≠ undef) (hn : v ≠ nac) : ∃ n, v = const n := by
  cases v with
  | undef => exact absurd rfl hu
  | const n => exact ⟨n, rfl⟩
  | nac => exact absurd rfl hn

theorem leq_trans {u v w : Value} (huv : u.leq v = true) (hvw : v.leq w = true) :
    u.leq w = true := by
  cases v with
  | undef => rw [leq_undef.mp huv]; exact undef_leq w
  | const n =>
    rcases const_leq.mp hvw with rfl | rfl
    · exact huv
    · exact leq_nac u
  | nac => rw [nac_leq.mp hvw]; exact leq_nac u

theorem leq_antisymm {v w : Value} (hvw : v.leq w = true) (hwv : w.leq v = true) : v = w := by
  rcases leq_iff.mp hvw with rfl | rfl | rfl
  · exact (leq_undef.mp hwv).symm
  · exact nac_leq.mp hwv
  · rfl

@[simp] theorem undef_meet (v : Value) : undef.meet v = v := by cases v <;> rfl

/-- A meet is the least upper bound. -/
theorem meet_leq_iff {u v w : Value} :
    (u.meet v).leq w = true ↔ u.leq w = true ∧ v.leq w = true := by
  have hnac : ∀ v : Value, nac.leq w = true → v.leq w = true := by
    intro v h
    rw [nac_leq.mp h]
    exact leq_nac v
  cases u with
  | undef => simp
  | nac =>
    have hmeet : nac.meet v = nac := by cases v <;> rfl
    rw [hmeet]
    exact ⟨fun h => ⟨h, hnac v h⟩, And.left⟩
  | const m =>
    cases v with
    | undef => exact (and_iff_left (undef_leq w)).symm
    | nac => exact ⟨fun h => ⟨hnac _ h, h⟩, And.right⟩
    | const n =>
      have hmeet : (const m).meet (const n) = if m = n then const m else nac := rfl
      rw [hmeet]
      split
      · next h => rw [h, and_self]
      · next h =>
        refine ⟨fun h => ⟨hnac _ h, hnac _ h⟩, fun ⟨hm, hn⟩ => nac_leq.mpr ?_⟩
        rcases const_leq.mp hm with rfl | rfl
        · exact absurd (const_leq_const.mp hn).symm h
        · rfl

theorem leq_meet_left (v w : Value) : v.leq (v.meet w) = true := (meet_leq_iff.mp (leq_refl _)).1

theorem leq_meet_right (v w : Value) : w.leq (v.meet w) = true := (meet_leq_iff.mp (leq_refl _)).2

theorem meet_leq {u v w : Value} (hu : u.leq w = true) (hv : v.leq w = true) :
    (u.meet v).leq w = true := meet_leq_iff.mpr ⟨hu, hv⟩

theorem eq_const_of_meet {u v : Value} {n : Int} (h : u.meet v = const n) :
    u = const n ∨ v = const n := by
  by_cases hundef : u = undef
  · rw [hundef, undef_meet] at h
    exact .inr h
  · have hu : u.leq (const n) = true := h ▸ leq_meet_left u v
    exact .inl (eq_of_leq hu hundef nofun)

theorem same_iff (v w : Value) : FactValue.same v w = true ↔ v = w := beq_iff_eq

/-- How far up a value stands. -/
def level : Value → Nat
  | undef => 0
  | const _ => 1
  | nac => 2

theorem level_le_two (v : Value) : v.level ≤ 2 := by cases v <;> simp [level]

theorem level_ne_zero {v : Value} : v.level ≠ 0 ↔ v ≠ undef := by cases v <;> simp [level]

theorem level_mono {v w : Value} (h : v.leq w = true) : v.level ≤ w.level := by
  rcases leq_iff.mp h with rfl | rfl | rfl
  · exact Nat.zero_le _
  · exact level_le_two v
  · exact Nat.le_refl _

theorem eq_of_level {v w : Value} (h : v.leq w = true) (hl : v.level = w.level) : v = w := by
  rcases leq_iff.mp h with rfl | rfl | rfl
  · by_contra hne
    exact level_ne_zero.mpr (Ne.symm hne) hl.symm
  · cases v with
    | nac => rfl
    | undef | const n => cases hl
  · rfl

end Value

namespace Constants
variable {f g t : Constants} {x y : Var} {v : Value}

theorem get_update (f : Constants) (x y : Var) (v : Value) :
    (f.update x v).1.get y = if y = x then v else f.get y := by
  rw [FactMap.get_update]
  by_cases h : y = x
  · by_cases hv : v = .undef <;> simp [h, hv, FactValue.same]
  · simp [h]

@[simp] theorem get_empty (x : Var) : (FactMap.empty : Constants).get x = .undef := rfl

theorem leq_iff : f.leq g = true ↔ ∀ x, (f.get x).leq (g.get x) = true := by
  rw [leq, List.all_eq_true]
  constructor
  · intro h x
    by_cases hx : x ∈ f.keys
    · exact h x (List.mem_append_left _ hx)
    · rw [FactMap.get_of_not_mem hx]
      exact Value.undef_leq _
  · intro h x _
    exact h x

theorem leq_refl (f : Constants) : f.leq f = true := leq_iff.mpr fun _ => Value.leq_refl _

theorem leq_trans (hfg : f.leq g = true) (hgt : g.leq t = true) : f.leq t = true :=
  leq_iff.mpr fun x => Value.leq_trans (leq_iff.mp hfg x) (leq_iff.mp hgt x)

/-- Updates of one variable keep the order exactly where the values do. -/
theorem update_leq_iff {w : Value} (h : f.leq g = true) :
    Constants.leq (f.update x v).1 (g.update x w).1 = true ↔ v.leq w = true := by
  rw [leq_iff]
  constructor
  · intro h
    simpa only [get_update, ↓reduceIte] using h x
  · intro hvw y
    rw [get_update, get_update]
    split
    · exact hvw
    · exact leq_iff.mp h y

theorem empty_leq (f : Constants) : Constants.leq .empty f = true :=
  leq_iff.mpr fun _ => Value.undef_leq _

theorem get_foldl_update {es : List (Var × Value)} (hn : (es.map (·.1)).Nodup) (f : Constants)
    (x : Var) : (es.foldl (fun f b => (f.update b.1 b.2).1) f).get x =
      (es.lookup x).getD (f.get x) := by
  induction es generalizing f with
  | nil => rfl
  | cons b rest ih =>
    obtain ⟨y, v⟩ := b
    obtain ⟨hy, hr⟩ := List.nodup_cons.mp hn
    rw [List.foldl_cons, ih hr, get_update, List.lookup_cons]
    by_cases hx : x = y
    · subst hx
      simp [FactMap.lookup_of_not_mem hy]
    · rw [if_neg hx, beq_eq_false_iff_ne.mpr hx]

theorem get_foldl_meet {es : List (Var × Value)} (hn : (es.map (·.1)).Nodup) (t : Constants)
    (x : Var) :
    (es.foldl (fun t b => (t.update b.1 (b.2.meet (t.get b.1))).1) t).get x =
      ((es.lookup x).getD .undef).meet (t.get x) := by
  induction es generalizing t with
  | nil => simp
  | cons b rest ih =>
    obtain ⟨y, v⟩ := b
    obtain ⟨hy, hr⟩ := List.nodup_cons.mp hn
    rw [List.foldl_cons, ih hr, get_update, List.lookup_cons]
    by_cases hx : x = y
    · subst hx
      simp [FactMap.lookup_of_not_mem hy]
    · rw [if_neg hx, beq_eq_false_iff_ne.mpr hx]

/-- A fact that is made binds a variable as its last binding says. -/
theorem get_ofList (bindings : List (Var × Value)) (x : Var) :
    (FactMap.ofList bindings : Constants).get x = (bindings.reverse.lookup x).getD .undef := by
  have hnodup : ((bindings.foldl (fun es b => FactMap.bind b.1 b.2 es) []).map (·.1)).Nodup :=
    FactMap.nodup_keys_foldl_bind bindings [] List.nodup_nil
  rw [FactMap.ofList, get_foldl_update hnodup, FactMap.lookup_foldl_bind, List.lookup_nil,
    Option.or_none, get_empty]

theorem get_merge (hf : f.Canonical) (t : Constants) (x : Var) :
    (f.merge t).get x = (f.get x).meet (t.get x) := get_foldl_meet hf.nodup t x

theorem ne_undef_of_merge (hf : f.Canonical) (h : (f.merge t).get x ≠ .undef) :
    f.get x ≠ .undef ∨ t.get x ≠ .undef := by
  rw [get_merge hf] at h
  by_cases hu : f.get x = .undef
  · rw [hu, Value.undef_meet] at h
    exact .inr h
  · exact .inl hu

theorem canonical_merge (f : Constants) (ht : t.Canonical) : (f.merge t).Canonical := by
  rw [merge]
  induction f.entries generalizing t with
  | nil => exact ht
  | cons b rest ih => exact ih (ht.update _ _)

theorem leq_merge_left (hf : f.Canonical) (t : Constants) : f.leq (f.merge t) = true := by
  apply leq_iff.mpr
  intro x
  rw [get_merge hf]
  exact Value.leq_meet_left _ _

theorem leq_merge_right (hf : f.Canonical) (t : Constants) : t.leq (f.merge t) = true := by
  apply leq_iff.mpr
  intro x
  rw [get_merge hf]
  exact Value.leq_meet_right _ _

theorem merge_leq (hf : f.Canonical) (hfg : f.leq g = true) (htg : t.leq g = true) :
    (f.merge t).leq g = true := by
  apply leq_iff.mpr
  intro x
  rw [get_merge hf]
  exact Value.meet_leq (leq_iff.mp hfg x) (leq_iff.mp htg x)

/-- Canonical facts are the same exactly when each is below the other. -/
theorem sameEntries_iff (hf : f.Canonical) (hg : g.Canonical) :
    f.sameEntries g = true ↔ f.leq g = true ∧ g.leq f = true := by
  rw [hf.sameEntries_iff_get Value.same_iff hg]
  constructor
  · intro h
    constructor <;> apply leq_iff.mpr <;> intro x <;> rw [h x] <;> exact Value.leq_refl _
  · rintro ⟨hfg, hgf⟩ x
    exact Value.leq_antisymm (leq_iff.mp hfg x) (leq_iff.mp hgf x)

end Constants

end FlowLint
