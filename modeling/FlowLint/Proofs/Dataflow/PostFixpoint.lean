import FlowLint.Proofs.Dataflow.LeastSolution
import FlowLint.Proofs.Dataflow.Visits

/-! # Post-fixpoints

After every visit of a run, all nodes that have been visited produce the transfer of what they
consume. When a run has converged, no node consumes less than its sources produce either. So the
flag of a run tells the truth on graphs of every shape, whatever the order of visits.
-/
namespace FlowLint
open Solver
variable {φ : Type}

/-- The runs of an analysis on a graph keep visited nodes balanced, and one that says it has
converged ends with a post-fixpoint above the boundary. -/
structure Analysis.EndsAtPostFixpoint (a : Analysis φ) (le : φ → φ → Prop) (g : Graph)
    (s : Strategy) (bound : Int) : Prop where
  balanced : ∀ ns st, Visits a g (start a s g) ns st → ∀ n ∈ ns, st.Balanced a g n
  ends : ∃ ns st, Visits a g (start a s g) ns st ∧ ns.length ≤ bound.toNat ∧
    solve a s bound g = .ok (st.solution a g)
  postFixpoint : ∀ r, solve a s bound g = .ok r → r.converged = true →
    r.producedAt (startNode a.direction) = a.boundary g.method ∧
    ∀ n ∈ g.nodes, n ≠ startNode a.direction →
      a.transfer (g.method.stmtAt n) (r.consumedAt n) = .ok (r.producedAt n) ∧
      ∀ p ∈ sources a.direction g n, le (r.producedAt p) (r.consumedAt n)

theorem Analysis.Lawful.endsAtPostFixpoint {a : Analysis φ} {valid : φ → Prop}
    {le : φ → φ → Prop} (hl : a.Lawful valid le) {g : Graph} (hg : g.Consistent) (s : Strategy)
    (bound : Int) : a.EndsAtPostFixpoint le g s bound where
  balanced _ _ h := h.balanced hl hg (start_invariant hl s g)
  ends := by
    obtain ⟨st, hrun⟩ := run_ok hl hg bound.toNat (start_invariant hl s g)
    obtain ⟨ns, hvisits, hlen, -⟩ := exists_visits hrun
    refine ⟨ns, st, hvisits, hlen, ?_⟩
    rw [solve_eq_map, hrun]
    rfl
  postFixpoint _ h hr := solve_settled hl hg h hr

/-- On every graph of a method, under every strategy and every bound, visited nodes stay balanced
and a run that has converged ends with a post-fixpoint. -/
theorem solve_endsAtPostFixpoint {m : Method} {g : Graph} (hg : Graph.Grown m g) (s : Strategy)
    (bound : Int) :
    ConstantPropagation.analysis.EndsAtPostFixpoint (fun f g => f.leq g = true) g s bound ∧
    Liveness.analysis.EndsAtPostFixpoint (fun f g => f.subset g = true) g s bound :=
  ⟨ConstantPropagation.lawful.endsAtPostFixpoint hg.consistent s bound,
    Liveness.lawful.endsAtPostFixpoint hg.consistent s bound⟩

/-- The loop with three edges more: from a statement to itself, beside an edge that is there and
into the entry. Both analyses converge on it. -/
theorem counting_endsAtPostFixpoint : ∃ g₀ g₁ g₂ g, Graph.build counting = .ok g₀ ∧
    g₀.addEdge ⟨.stmt 2, .stmt 2, .normal, none⟩ = .ok g₁ ∧
    g₁.addEdge ⟨.stmt 0, .stmt 1, .normal, none⟩ = .ok g₂ ∧
    g₂.addEdge ⟨.exit, .entry, .normal, none⟩ = .ok g ∧
    (ConstantPropagation.analysis.EndsAtPostFixpoint (fun f g => f.leq g = true) g .lifo 100 ∧
      ∃ r, solve ConstantPropagation.analysis .lifo 100 g = .ok r ∧ r.converged = true) ∧
    Liveness.analysis.EndsAtPostFixpoint (fun f g => f.subset g = true) g .lifo 100 ∧
      ∃ r, solve Liveness.analysis .lifo 100 g = .ok r ∧ r.converged = true := by
  refine ⟨_, _, _, _, rfl, rfl, rfl, rfl, ?_⟩
  obtain ⟨hconst, hlive⟩ := solve_endsAtPostFixpoint (.addEdge (.addEdge (.addEdge
    (.build (m := counting) rfl) ⟨.stmt 2, .stmt 2, .normal, none⟩ rfl)
    ⟨.stmt 0, .stmt 1, .normal, none⟩ rfl) ⟨.exit, .entry, .normal, none⟩ rfl) .lifo 100
  exact ⟨⟨hconst, _, rfl, rfl⟩, hlive, _, rfl, rfl⟩

end FlowLint
