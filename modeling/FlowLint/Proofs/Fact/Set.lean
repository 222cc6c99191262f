import FlowLint.Fact.Set

/-! # Inclusion of set facts

The union of two sets is the least one that includes both.
-/
namespace FlowLint.FactSet
variable {α : Type} [BEq α] [LawfulBEq α] {f g h : FactSet α}

theorem subset_iff : f.subset g = true ↔ ∀ a, f.contains a = true → g.contains a = true := by
  rw [subset, List.all_eq_true]
  constructor
  · intro hs a ha
    exact hs a (List.contains_iff_mem.mp ha)
  · intro hs a ha
    exact hs a (List.contains_iff_mem.mpr ha)

omit [LawfulBEq α] in
theorem same_iff : f.same g = true ↔ f.subset g = true ∧ g.subset f = true := Bool.and_eq_true_iff

theorem contains_eq_of_same (h : f.same g = true) (a : α) : f.contains a = g.contains a := by
  obtain ⟨hfg, hgf⟩ := same_iff.mp h
  exact Bool.eq_iff_iff.mpr ⟨subset_iff.mp hfg a, subset_iff.mp hgf a⟩

theorem subset_refl (f : FactSet α) : f.subset f = true := subset_iff.mpr fun _ => id

theorem subset_trans (hfg : f.subset g = true) (hgh : g.subset h = true) : f.subset h = true :=
  subset_iff.mpr fun a ha => subset_iff.mp hgh a (subset_iff.mp hfg a ha)

omit [LawfulBEq α] in
theorem empty_subset (f : FactSet α) : FactSet.subset .empty f = true := rfl

theorem subset_union_left (f g : FactSet α) : f.subset (f.union g).1 = true := by
  apply subset_iff.mpr
  intro a ha
  rw [contains_union, ha, Bool.true_or]

theorem subset_union_right (f g : FactSet α) : g.subset (f.union g).1 = true := by
  apply subset_iff.mpr
  intro a ha
  rw [contains_union, ha, Bool.or_true]

theorem union_subset (hf : f.subset h = true) (hg : g.subset h = true) :
    (f.union g).1.subset h = true := by
  apply subset_iff.mpr
  intro a ha
  rw [contains_union, Bool.or_eq_true] at ha
  exact ha.elim (subset_iff.mp hf a) (subset_iff.mp hg a)

end FlowLint.FactSet
