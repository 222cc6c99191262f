import FlowLint.Proofs.Dataflow.ConstantPropagation
import FlowLint.Proofs.Dataflow.Liveness
import FlowLint.Proofs.Variables

/-! # Least solutions of the bundled analyses

Liveness is monotone, and so is constant propagation where nothing is divided. There a converged
run holds exactly what the inequations force.
-/
namespace FlowLint

def Stmt.dividesTracked (s : Stmt Nat) : Bool := s.tracked?.any fun p => p.2.divides

namespace Method
variable {m : Method}

/-- No tracked variable is defined by an expression that divides. -/
def DivisionFree (m : Method) : Prop := ∀ s ∈ m.body, s.dividesTracked = false

instance (m : Method) : Decidable m.DivisionFree :=
  inferInstanceAs (Decidable (∀ s ∈ m.body, s.dividesTracked = false))

theorem DivisionFree.dividesSafely (h : m.DivisionFree) (n : Node) (known : Constants) :
    (m.stmtAt n).dividesSafely known = true := by
  rw [Stmt.dividesSafely]
  cases ht : (m.stmtAt n).tracked? with
  | none => rfl
  | some p =>
    obtain ⟨x, e⟩ := p
    have hmem : m.stmtAt n ∈ m.body := by
      rcases m.mem_body_or_nop n with hmem | ⟨label, hnop⟩
      · exact hmem
      · rw [Stmt.tracked?_eq_some_iff, hnop] at ht
        cases ht.1
    have hs := h _ hmem
    rw [Stmt.dividesTracked, ht] at hs
    exact Expr.dividesSafely_of_not_divides known hs

end Method

/-- Over every graph of a method, under every strategy and every bound, a run that converges yields
the least solution of liveness, and that of constant propagation if the method divides nowhere. -/
theorem solve_isLeastSolution {m : Method} {g : Graph} (hg : Graph.Grown m g) (s : Strategy)
    (bound : Int) :
    (∃ r, solve Liveness.analysis s bound g = .ok r ∧ (r.converged = true →
      Liveness.analysis.IsLeastSolution (fun f g => f.subset g = true) g
        r.consumedAt r.producedAt)) ∧
    (m.DivisionFree → ∃ r, solve ConstantPropagation.analysis s bound g = .ok r ∧
      (r.converged = true → ConstantPropagation.analysis.IsLeastSolution
        (fun f g => f.leq g = true) g r.consumedAt r.producedAt)) := by
  have hcons := hg.consistent
  constructor
  · obtain ⟨r, hr⟩ := solve_ok Liveness.lawful hcons s bound
    refine ⟨r, hr, fun hconv => ⟨solve_isSolution Liveness.lawful hcons hr hconv, ?_⟩⟩
    intro consumed produced hsol
    exact solve_below Liveness.lawful hcons hsol (Liveness.respects hsol) hr
  · intro hfree
    obtain ⟨r, hr⟩ := solve_ok ConstantPropagation.lawful hcons s bound
    refine ⟨r, hr, fun hconv => ⟨solve_isSolution ConstantPropagation.lawful hcons hr hconv, ?_⟩⟩
    intro consumed produced hsol
    have hsafe : ∀ n ∈ g.nodes, (g.method.stmtAt n).dividesSafely (consumed n) = true := by
      intro n _
      rw [hg.method_eq]
      exact hfree.dividesSafely n (consumed n)
    exact solve_below ConstantPropagation.lawful hcons hsol
      (ConstantPropagation.respects hsol hsafe) hr

def counting : Method where
  name := "count"
  file := "count.ir"
  params := [⟨"n", "n", .prim .int⟩]
  body := [
    ⟨1, .assign (.var ⟨"i", "i", .prim .int⟩) (.lit 0)⟩,
    ⟨2, .branch (.bin .ge (.var ⟨"i", "i", .prim .int⟩) (.var ⟨"n", "n", .prim .int⟩)) (some 4)⟩,
    ⟨3, .assign (.var ⟨"i", "i", .prim .int⟩) (.bin .add (.var ⟨"i", "i", .prim .int⟩) (.lit 1))⟩,
    ⟨4, .goto (some 1)⟩,
    ⟨5, .ret (some (.var ⟨"i", "i", .prim .int⟩))⟩]
  targets_lt := by decide

/-- The loop with an edge more, from its body to the exit. -/
theorem counting_isLeastSolution : ∃ g₀ g, Graph.build counting = .ok g₀ ∧
    g₀.addEdge ⟨.stmt 2, .exit, .normal, none⟩ = .ok g ∧
    (∃ r, solve Liveness.analysis .fifo 100 g = .ok r ∧ r.converged = true ∧
      Liveness.analysis.IsLeastSolution (fun f g => f.subset g = true) g
        r.consumedAt r.producedAt) ∧
    ∃ r, solve ConstantPropagation.analysis .fifo 100 g = .ok r ∧ r.converged = true ∧
      ConstantPropagation.analysis.IsLeastSolution (fun f g => f.leq g = true) g
        r.consumedAt r.producedAt := by
  refine ⟨_, _, rfl, rfl, ?_⟩
  obtain ⟨⟨r, hr, hlive⟩, hconst⟩ := solve_isLeastSolution
    (.addEdge (.build (m := counting) rfl) ⟨.stmt 2, .exit, .normal, none⟩ rfl) .fifo 100
  obtain ⟨q, hq, hconst⟩ := hconst (by decide)
  have hrc : r.converged = true := by
    cases hr
    rfl
  have hqc : q.converged = true := by
    cases hq
    rfl
  exact ⟨⟨r, hr, hrc, hlive hrc⟩, q, hq, hqc, hconst hqc⟩

end FlowLint
