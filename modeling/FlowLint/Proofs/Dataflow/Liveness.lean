import FlowLint.Dataflow.Liveness
import FlowLint.Proofs.Dataflow.Solution
import FlowLint.Proofs.Fact.Set

/-! # The laws of live variables

Before a statement are live what it reads, and what is live after it unless it assigns that.
-/
namespace FlowLint.Liveness
variable {s : Stmt Nat} {live live' : LiveSet} {x : Var}

theorem contains_liveBefore : (liveBefore s live).contains x = true ↔
    x ∈ s.action.uses ∨ live.contains x = true ∧ s.action.defines? ≠ some x := by
  rw [liveBefore, FactSet.contains_addAll]
  cases hd : s.action.defines? with
  | none =>
    simp only [Bool.or_eq_true, List.contains_iff_mem]
    constructor
    · rintro (h | h)
      · exact .inr ⟨h, nofun⟩
      · exact .inl h
    · rintro (h | ⟨h, -⟩)
      · exact .inr h
      · exact .inl h
  | some y =>
    simp only [FactSet.contains_remove, Bool.or_eq_true, Bool.and_eq_true, Bool.not_eq_true',
      beq_eq_false_iff_ne, List.contains_iff_mem, ne_eq, Option.some.injEq]
    constructor
    · rintro (⟨h, hne⟩ | h)
      · exact .inr ⟨h, fun he => hne he.symm⟩
      · exact .inl h
    · rintro (h | ⟨h, hne⟩)
      · exact .inr h
      · exact .inl ⟨h, fun he => hne he.symm⟩

theorem liveBefore_mono (h : live.subset live' = true) :
    (liveBefore s live).subset (liveBefore s live') = true := by
  apply FactSet.subset_iff.mpr
  intro x hx
  rcases contains_liveBefore.mp hx with hx | ⟨hx, hd⟩
  · exact contains_liveBefore.mpr (.inl hx)
  · exact contains_liveBefore.mpr (.inr ⟨FactSet.subset_iff.mp h x hx, hd⟩)

theorem lawful : analysis.Lawful (fun _ => True) (fun f g => f.subset g = true) where
  refl := FactSet.subset_refl
  trans := FactSet.subset_trans
  initial_le := FactSet.empty_subset
  initial_valid := trivial
  boundary_valid _ := trivial
  merge_valid _ _ := trivial
  le_merge_left {f t} _ _ := FactSet.subset_union_right t f
  le_merge_right {f t} _ _ := FactSet.subset_union_left t f
  merge_le _ _ hf ht := FactSet.union_subset ht hf
  transfer_valid s f _ := ⟨liveBefore s f, rfl, trivial⟩
  same_iff _ _ := FactSet.same_iff

/-- The transfer respects every solution. -/
theorem respects {g : Graph} {consumed produced : Node → LiveSet}
    (h : analysis.IsSolution (fun f g => f.subset g = true) g consumed produced) :
    analysis.Respects (fun _ => True) (fun f g => f.subset g = true) g consumed produced := by
  intro n hn f k _ hf hk hs
  obtain ⟨w, hw, hle⟩ := h.transfer_le n hn hs
  cases hk
  cases hw
  exact FactSet.subset_trans (liveBefore_mono hf) hle

end FlowLint.Liveness
