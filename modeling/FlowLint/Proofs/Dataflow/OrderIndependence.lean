import FlowLint.Proofs.Dataflow.ConstantPropagation
import FlowLint.Proofs.Dataflow.Liveness

/-! # Facts that do not depend on the order of visits

A division of something that is no constant falls back to undefined when its divisor turns out to
be zero. A run that came by earlier keeps what it saw, so its facts depend on the order of visits.
Nothing else makes them do so.
-/
namespace FlowLint

/-- Divisions are safe under what is known before each node. -/
def Solution.DividesSafely (r : Solution Constants) (g : Graph) : Prop :=
  ∀ n ∈ g.nodes, (g.method.stmtAt n).dividesSafely (r.before n) = true

instance (r : Solution Constants) (g : Graph) : Decidable (r.DividesSafely g) :=
  inferInstanceAs (Decidable (∀ n ∈ g.nodes, _ = true))

section
variable {g : Graph} {s s' : Strategy} {bound bound' : Int}

/-- Constants do not depend on the order of visits where divisions are safe under both results. -/
theorem ConstantPropagation.solve_same (hg : g.Consistent) {r r' : Solution Constants}
    (h : solve analysis s bound g = .ok r) (hr : r.converged = true) (hd : r.DividesSafely g)
    (h' : solve analysis s' bound' g = .ok r') (hr' : r'.converged = true)
    (hd' : r'.DividesSafely g) (n : Node) :
    analysis.same (r.before n) (r'.before n) = true ∧
      analysis.same (r.after n) (r'.after n) = true := by
  have hf := (solve_eq h).1
  have hf' := (solve_eq h').1
  rw [Solution.DividesSafely, Solution.before_forward hf] at hd
  rw [Solution.DividesSafely, Solution.before_forward hf'] at hd'
  rw [Solution.before_forward hf, Solution.before_forward hf', Solution.after_forward hf,
    Solution.after_forward hf']
  exact FlowLint.solve_same lawful hg h hr (respects (solve_isSolution lawful hg h hr) hd) h' hr'
    (respects (solve_isSolution lawful hg h' hr') hd') n

theorem ConstantPropagation.get_eq_of_same {f f' : Constants} (hf : f.Valid) (hf' : f'.Valid)
    (h : analysis.same f f' = true) (x : Var) : f.get x = f'.get x :=
  (hf.canonical.sameEntries_iff_get Value.same_iff hf'.canonical).mp h x

theorem Liveness.solve_same (hg : g.Consistent) {r r' : Solution LiveSet}
    (h : solve analysis s bound g = .ok r) (hr : r.converged = true)
    (h' : solve analysis s' bound' g = .ok r') (hr' : r'.converged = true) (n : Node) :
    (r.after n).same (r'.after n) = true := by
  rw [Solution.after_backward (solve_eq h).1, Solution.after_backward (solve_eq h').1]
  exact (FlowLint.solve_same lawful hg h hr (respects (solve_isSolution lawful hg h hr)) h' hr'
    (respects (solve_isSolution lawful hg h' hr')) n).1

end

end FlowLint
