import FlowLint.Proofs.Dataflow.Liveness
import FlowLint.Proofs.Variables
import Mathlib.Data.List.Chain

/-! # Live variables and paths

A variable is live after a node exactly when a path of the graph leads from there to a statement
that reads the variable, past no statement that assigns it. Nodes that control never comes to count
as well, and so do those that it never leaves for the exit.
-/
namespace FlowLint
open Solver

namespace Graph
variable {g : Graph} {n k : Node} {x : Var}

def Reads (g : Graph) (x : Var) (n : Node) : Prop := x ∈ (g.method.stmtAt n).action.uses

def Assigns (g : Graph) (x : Var) (n : Node) : Prop :=
  (g.method.stmtAt n).action.defines? = some x

/-- A path of at least one edge leads from a node to one that reads a variable, and none of the
nodes between them assigns it. -/
def ReadAhead (g : Graph) (x : Var) (n : Node) : Prop :=
  ∃ (between : List Node) (last : Node), (n :: (between ++ [last])).IsChain g.Leads ∧
    g.Reads x last ∧ ∀ k ∈ between, ¬ g.Assigns x k

theorem ReadAhead.cons (hk : g.Leads n k) (h : g.Reads x k ∨ g.ReadAhead x k ∧ ¬ g.Assigns x k) :
    g.ReadAhead x n := by
  rcases h with hread | ⟨⟨between, last, hchain, hread, hkept⟩, hnot⟩
  · exact ⟨[], k, .cons_cons hk (.singleton k), hread, nofun⟩
  · refine ⟨k :: between, last, .cons_cons hk hchain, hread, ?_⟩
    rintro l (_ | ⟨_, hl⟩)
    · exact hnot
    · exact hkept l hl

/-- What holds of a node as soon as an edge leads to one that reads the variable, or to one of which
it holds and that does not assign the variable. -/
theorem ReadAhead.induction {P : Node → Prop}
    (hstep : ∀ n k, g.Leads n k → g.Reads x k ∨ P k ∧ ¬ g.Assigns x k → P n)
    (h : g.ReadAhead x n) : P n := by
  obtain ⟨between, last, hchain, hread, hkept⟩ := h
  induction between generalizing n with
  | nil => exact hstep n last (List.isChain_cons_cons.mp hchain).1 (.inl hread)
  | cons k between ih =>
    obtain ⟨hk, hchain⟩ := List.isChain_cons_cons.mp hchain
    obtain ⟨hnot, hkept⟩ := List.forall_mem_cons.mp hkept
    exact hstep n k hk (.inr ⟨ih hchain hkept, hnot⟩)

theorem ReadAhead.mem_vars (h : g.ReadAhead x n) : x ∈ g.method.vars := by
  obtain ⟨-, last, -, hread, -⟩ := h
  exact Method.mem_vars_of_stmtAt (.inr hread)

theorem not_leads_exit {m : Method} (hb : build m = .ok g) : ¬ g.Leads .exit k := by
  rintro ⟨e, he, hs, -⟩
  rcases ((build_spec hb).2.2.2 e).mp he with rfl | ⟨i, s, -, hf⟩
  · cases hs
  · rw [hf.source] at hs
    cases hs

theorem ReadAhead.ne_exit {m : Method} (hb : build m = .ok g) (h : g.ReadAhead x n) :
    n ≠ .exit := by
  apply h.induction
  rintro _ k hk - rfl
  exact not_leads_exit hb hk

end Graph

namespace Liveness
variable {m : Method} {g : Graph} {s : Strategy} {bound : Int} {r : Solution LiveSet} {n : Node}
  {x : Var}

open Classical in
/-- The variables that are read ahead of a node. -/
noncomputable def readAhead (g : Graph) (n : Node) : LiveSet :=
  ⟨g.method.vars.filter fun x => decide (g.ReadAhead x n)⟩

theorem contains_readAhead : (readAhead g n).contains x = true ↔ g.ReadAhead x n := by
  classical
  rw [readAhead, FactSet.contains, List.contains_iff_mem, List.mem_filter, decide_eq_true_eq,
    and_iff_right_of_imp Graph.ReadAhead.mem_vars]

/-- What is read ahead solves the inequations, so that no run finds more variables live. -/
theorem readAhead_isSolution (hg : g.Consistent) :
    analysis.IsSolution (fun f g => f.subset g = true) g (readAhead g)
      (fun n => liveBefore (g.method.stmtAt n) (readAhead g n)) where
  boundary_le := FactSet.empty_subset _
  flow_le n _ _ k hk := by
    apply FactSet.subset_iff.mpr
    intro x hx
    have hleads : g.Leads n k := (Graph.mem_successors hg).mp hk
    rw [contains_liveBefore, contains_readAhead] at hx
    exact contains_readAhead.mpr (.cons hleads hx)
  transfer_le _ _ _ := ⟨_, rfl, FactSet.subset_refl _⟩

theorem readAhead_of_live (hg : g.Consistent) (h : solve analysis s bound g = .ok r)
    (hn : n ∈ g.nodes) (hx : (r.consumedAt n).contains x = true) : g.ReadAhead x n := by
  have hsol := readAhead_isSolution hg
  have hbelow := solve_below lawful hg hsol (respects hsol) h n hn
  exact contains_readAhead.mp (FactSet.subset_iff.mp hbelow.1 x hx)

section
variable (hb : Graph.build m = .ok g) (h : solve analysis s bound g = .ok r)
  (hconv : r.converged = true)
include hb h hconv

theorem contains_produced (hn : n ∈ g.nodes) : (r.producedAt n).contains x = true ↔
    g.Reads x n ∨ (r.consumedAt n).contains x = true ∧ ¬ g.Assigns x n := by
  obtain ⟨-, hg, -⟩ := Graph.build_spec hb
  obtain ⟨hstart, hsettled⟩ := solve_settled lawful hg h hconv
  by_cases hexit : n = .exit
  · -- the exit keeps its boundary fact, and nothing is read ahead of it
    subst hexit
    have hnot : (r.consumedAt .exit).contains x ≠ true := fun hx =>
      (readAhead_of_live hg h hn hx).ne_exit hb rfl
    rw [show r.producedAt .exit = .empty from hstart]
    exact ⟨nofun, fun hx => hx.elim nofun fun hx => absurd hx.1 hnot⟩
  · rw [← Except.ok.inj (hsettled n hn hexit).1]
    exact contains_liveBefore

theorem live_of_readAhead (hx : g.ReadAhead x n) : (r.consumedAt n).contains x = true := by
  obtain ⟨-, hg, -⟩ := Graph.build_spec hb
  apply hx.induction (P := fun n => (r.consumedAt n).contains x = true)
  intro n k hleads hk
  have hsucc : k ∈ g.successors n := (Graph.mem_successors hg).mpr hleads
  have hn : n ≠ .exit := by
    rintro rfl
    exact Graph.not_leads_exit hb hleads
  have hmem : k ∈ g.nodes := by
    obtain ⟨e, he, -, rfl⟩ := hleads
    exact Graph.mem_nodes.mpr (hg.contains_target e he)
  exact FactSet.subset_iff.mp (solve_flow lawful hg h hconv hsucc hn) x
    ((contains_produced hb h hconv hmem).mpr hk)

end

end Liveness

/-- When liveness has converged on the graph of a method, a variable is live after a node exactly
when it is read ahead of the node, and before it if the node reads it or leaves it alone while it
is live after it. -/
theorem live_iff_readAhead {m : Method} {g : Graph} (hb : Graph.build m = .ok g) (s : Strategy)
    (bound : Int) : ∃ r, solve Liveness.analysis s bound g = .ok r ∧ (r.converged = true →
      ∀ n ∈ g.nodes, ∀ x, ((r.after n).contains x = true ↔ g.ReadAhead x n) ∧
        ((r.before n).contains x = true ↔
          g.Reads x n ∨ (r.after n).contains x = true ∧ ¬ g.Assigns x n)) := by
  obtain ⟨-, hg, -⟩ := Graph.build_spec hb
  obtain ⟨r, hr⟩ := solve_ok Liveness.lawful hg s bound
  refine ⟨r, hr, fun hconv n hn x => ?_⟩
  rw [Solution.before_backward (solve_eq hr).1, Solution.after_backward (solve_eq hr).1]
  exact ⟨⟨Liveness.readAhead_of_live hg hr hn, Liveness.live_of_readAhead hb hr hconv⟩,
    Liveness.contains_produced hb hr hconv hn⟩

/-- A loop that control never leaves, and behind it statements that control never comes to, with a
switch that leads nowhere at the end. -/
def spinning : Method where
  name := "spin"
  file := "spin.ir"
  params := [⟨"n", "n", .prim .int⟩]
  body := [
    ⟨1, .assign (.var ⟨"i", "i", .prim .int⟩) (.lit 0)⟩,
    ⟨2, .assign (.var ⟨"i", "i", .prim .int⟩)
      (.bin .add (.var ⟨"i", "i", .prim .int⟩) (.var ⟨"n", "n", .prim .int⟩))⟩,
    ⟨3, .goto (some 1)⟩,
    ⟨4, .assign (.var ⟨"j", "j", .prim .long⟩) (.var ⟨"i", "i", .prim .int⟩)⟩,
    ⟨5, .switch ⟨"j", "j", .prim .long⟩ [] none⟩]
  targets_lt := by decide

/-- The sum is read again in the loop, and the copy by the switch; after the switch nothing is. -/
theorem spinning_live_iff_readAhead : ∃ g r, Graph.build spinning = .ok g ∧
    solve Liveness.analysis .lifo 100 g = .ok r ∧ r.converged = true ∧
    (∀ n ∈ g.nodes, ∀ x, ((r.after n).contains x = true ↔ g.ReadAhead x n) ∧
      ((r.before n).contains x = true ↔
        g.Reads x n ∨ (r.after n).contains x = true ∧ ¬ g.Assigns x n)) ∧
    g.ReadAhead ⟨"i", "i", .prim .int⟩ (.stmt 2) ∧ g.ReadAhead ⟨"j", "j", .prim .long⟩ (.stmt 3) ∧
    ∀ x, ¬ g.ReadAhead x (.stmt 4) := by
  obtain ⟨r, hr, hlive⟩ := live_iff_readAhead (m := spinning) rfl .lifo 100
  have hconv : r.converged = true := by
    cases hr
    rfl
  have hsum : (r.after (.stmt 2)).contains ⟨"i", "i", .prim .int⟩ = true := by
    cases hr
    rfl
  have hcopy : (r.after (.stmt 3)).contains ⟨"j", "j", .prim .long⟩ = true := by
    cases hr
    rfl
  have hend : (r.after (.stmt 4)).elems = [] := by
    cases hr
    rfl
  have hiff := hlive hconv
  refine ⟨_, r, rfl, hr, hconv, hiff, (hiff (.stmt 2) (by decide) _).1.mp hsum,
    (hiff (.stmt 3) (by decide) _).1.mp hcopy, fun x hx => ?_⟩
  have hlast := (hiff (.stmt 4) (by decide) x).1.mpr hx
  rw [FactSet.contains, hend] at hlast
  cases hlast

end FlowLint
