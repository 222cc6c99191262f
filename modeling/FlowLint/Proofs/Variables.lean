import FlowLint.Graph.Node

/-! # The variables of a method

They are the parameters and all that its statements define or read. The nodes that stand for no
statement mention none.
-/
namespace FlowLint.Method
variable {m : Method} {x : Var} {n : Node}

theorem mem_foldl_addVar {xs ys : List Var} : x ∈ ys.foldl addVar xs ↔ x ∈ xs ∨ x ∈ ys := by
  induction ys generalizing xs with
  | nil => simp
  | cons y ys ih =>
    have hadd : x ∈ addVar xs y ↔ x ∈ xs ∨ x = y := by
      rw [addVar]
      split
      · next hy =>
        refine ⟨.inl, fun h => h.elim id ?_⟩
        rintro rfl
        exact List.contains_iff_mem.mp hy
      · simp
    rw [List.foldl_cons, ih, hadd, List.mem_cons, or_assoc]

theorem mem_vars : x ∈ m.vars ↔
    x ∈ m.params ∨ ∃ s ∈ m.body, s.action.defines? = some x ∨ x ∈ s.action.uses := by
  have hfold : ∀ (ss : List (Stmt Nat)) (xs : List Var),
      x ∈ ss.foldl (fun xs s => (s.action.defines?.toList ++ s.action.uses).foldl addVar xs) xs ↔
        x ∈ xs ∨ ∃ s ∈ ss, s.action.defines? = some x ∨ x ∈ s.action.uses := by
    intro ss
    induction ss with
    | nil => simp
    | cons s ss ih =>
      intro xs
      rw [List.foldl_cons, ih, mem_foldl_addVar, List.mem_append, Option.mem_toList, or_assoc]
      simp
  rw [vars, hfold, mem_foldl_addVar]
  simp

theorem mem_body_or_nop (m : Method) (n : Node) :
    m.stmtAt n ∈ m.body ∨ ∃ label, (m.stmtAt n).action = .nop label := by
  cases n with
  | stmt i =>
    rw [stmtAt]
    cases hi : m.body[i]? with
    | some s => exact .inl (List.mem_of_getElem? hi)
    | none => exact .inr ⟨"", rfl⟩
  | entry => exact .inr ⟨"entry", rfl⟩
  | exit => exact .inr ⟨"exit", rfl⟩
  | stray line text => exact .inr ⟨text, rfl⟩

theorem mem_vars_of_stmtAt
    (h : (m.stmtAt n).action.defines? = some x ∨ x ∈ (m.stmtAt n).action.uses) : x ∈ m.vars := by
  rcases m.mem_body_or_nop n with hs | ⟨label, hs⟩
  · exact mem_vars.mpr (.inr ⟨_, hs, h⟩)
  · rw [hs] at h
    rcases h with h | h
    · cases h
    · cases h

end FlowLint.Method
