import FlowLint.Proofs.DeadCode
import FlowLint.Proofs.Feasible
import FlowLint.Proofs.Graph.Orders

/-! # Which statements are judged dead

What is judged under facts about constants and about live variables, whatever runs they come from:
the feasible nodes are the least ones closed under feasible edges, and the dead statements are those
that are not reached and have a source line, and those that are reached and useless.
-/
namespace FlowLint

namespace Graph
variable {m : Method} {g : Graph} {r : Solution Constants} {q : Solution LiveSet}

/-- No feasible edge leaves the nodes that edges lead to from the entry. -/
theorem follows_reaches (hg : g.Consistent) (r : Solution Constants) :
    g.Follows r {n | g.Reaches .entry n} := by
  refine ⟨.refl, fun n hn e he _ => ?_⟩
  have hstep : e.target ∈ g.successors n := List.mem_map_of_mem he
  exact hn.tail ((mem_successors hg).mp hstep)

/-- The nodes that are feasible in a graph under facts about constants, and the positions of the
statements that are dead under these and facts about live variables. -/
structure Judges (g : Graph) (r : Solution Constants) (q : Solution LiveSet) (nodes : List Node)
    (dead : List Nat) : Prop where
  least : IsLeast {S | g.Follows r S} {n | n ∈ nodes}
  reached : ∀ n ∈ nodes, n ∈ g.reachableFrom .entry
  ascending : dead.Pairwise (· < ·)
  nodup : dead.Nodup
  mem_iff : ∀ i, i ∈ dead ↔ ∃ s, g.method.body[i]? = some s ∧
    ((.stmt i ∉ nodes ∧ 0 < s.line) ∨
      (.stmt i ∈ nodes ∧ ∃ x e, s.action.definition? = some (some (.var x), e) ∧
        (q.after (.stmt i)).contains x = false ∧ e.isEffectFree = true))
  /-- Statements without a source line that are not reached are never dead. -/
  unplaced : ∀ i s, g.method.body[i]? = some s → .stmt i ∉ nodes → s.line ≤ 0 → i ∉ dead

/-- Under facts whose constants are words no judgement fails, and it is exact: for every graph that
is made by adding edges to the nodes of a method, and for any facts about live variables. -/
theorem exists_judges (h : Made m g) (hr : r.KnowsWords) (q : Solution LiveSet) :
    ∃ nodes, g.feasible r = .ok nodes ∧ g.Judges r q nodes (g.method.deadCode nodes q) := by
  obtain ⟨nodes, hnodes, hentry, hclosed⟩ := exists_feasible h.consistent hr
  have hleast := feasible_isLeast hr hentry hclosed hnodes
  have hreached : ∀ n ∈ nodes, n ∈ g.reachableFrom .entry := by
    intro n hn
    have hreach : g.Reaches .entry n := hleast.2 (follows_reaches h.consistent r) hn
    exact ((reachableFrom_spec h.consistent rfl).2 n).mpr hreach
  have hascending := g.method.deadCode_pairwise nodes q
  have hmem : ∀ i, i ∈ g.method.deadCode nodes q ↔ ∃ s, g.method.body[i]? = some s ∧
      ((.stmt i ∉ nodes ∧ 0 < s.line) ∨
        (.stmt i ∈ nodes ∧ ∃ x e, s.action.definition? = some (some (.var x), e) ∧
          (q.after (.stmt i)).contains x = false ∧ e.isEffectFree = true)) := by
    intro i
    simp only [Method.mem_deadCode, Stmt.isUseless_iff, or_comm]
  refine ⟨nodes, hnodes, hleast, hreached, hascending, hascending.imp Nat.ne_of_lt, hmem, ?_⟩
  intro i s hs hnot hline hdead
  obtain ⟨s', hs', hwhy⟩ := (hmem i).mp hdead
  cases hs.symm.trans hs'
  rcases hwhy with ⟨-, hpos⟩ | ⟨hin, -⟩
  · exact absurd hpos (Int.not_lt.mpr hline)
  · exact hnot hin

/-- A branch that is always taken, over a statement without a source line and one with it, and a
loop that computes a sum for nothing. -/
def guarded : Method where
  name := "guard"
  file := "guard.ir"
  params := [⟨"n", "n", .prim .int⟩]
  body := [
    ⟨1, .assign (.var ⟨"x", "x", .prim .int⟩) (.lit 1)⟩,
    ⟨2, .branch (.bin .eq (.var ⟨"x", "x", .prim .int⟩) (.lit 1)) (some 4)⟩,
    ⟨0, .assign (.var ⟨"y", "y", .prim .int⟩) (.lit 5)⟩,
    ⟨3, .nop "nop"⟩,
    ⟨4, .assign (.var ⟨"z", "z", .prim .int⟩) (.bin .add (.var ⟨"x", "x", .prim .int⟩) (.lit 1))⟩,
    ⟨5, .branch (.bin .eq (.var ⟨"n", "n", .prim .int⟩) (.lit 0)) (some 4)⟩,
    ⟨6, .ret (some (.var ⟨"x", "x", .prim .int⟩))⟩]
  targets_lt := by decide

/-- The skipped statement with a source line is dead, and so is the sum. -/
theorem guarded_judges : ∃ g r q nodes, build guarded = .ok g ∧
    solve ConstantPropagation.analysis .fifo 100 g = .ok r ∧ r.converged = true ∧
    solve Liveness.analysis .fifo 100 g = .ok q ∧ q.converged = true ∧
    g.feasible r = .ok nodes ∧ guarded.deadCode nodes q = [3, 4] ∧
    g.Judges r q nodes [3, 4] := by
  obtain ⟨g, r, q, hb, hr, hr', hq, hq', hdead⟩ : ∃ g r q, build guarded = .ok g ∧
      solve ConstantPropagation.analysis .fifo 100 g = .ok r ∧ r.converged = true ∧
      solve Liveness.analysis .fifo 100 g = .ok q ∧ q.converged = true ∧
      ((g.feasible r).toOption.map fun nodes => guarded.deadCode nodes q) = some [3, 4] := by
    refine ⟨_, _, _, rfl, rfl, rfl, rfl, rfl, ?_⟩
    decide +kernel
  have hmade : Made guarded g := (Grown.build hb).made
  have hwords : r.KnowsWords := fun n =>
    (ConstantPropagation.before_valid hmade.consistent hr n).words
  obtain ⟨nodes, hnodes, hjudges⟩ := exists_judges hmade hwords q
  rw [hnodes] at hdead
  have hdead : guarded.deadCode nodes q = [3, 4] := Option.some.inj hdead
  rw [hmade.method_eq, hdead] at hjudges
  exact ⟨g, r, q, nodes, hb, hr, hr', hq, hq', hnodes, hdead, hjudges⟩

end Graph

end FlowLint
