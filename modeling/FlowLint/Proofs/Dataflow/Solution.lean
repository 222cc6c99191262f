import FlowLint.Proofs.Dataflow.Solver
import FlowLint.Proofs.Graph.Flow

/-! # Solutions of dataflow inequations

A converged run of the solver yields a solution: a post-fixpoint that holds of the boundary at the
start node. It is the least one wherever the transfer of each node is monotone below the other.
-/
namespace FlowLint
open Solver
variable {φ : Type}

namespace Solution

/-- What a node consumes under a solution. -/
def consumedAt (r : Solution φ) (n : Node) : φ := r.consumed.getD n r.initial

def producedAt (r : Solution φ) (n : Node) : φ := r.produced.getD n r.initial

theorem before_forward {r : Solution φ} (h : r.direction = .forward) : r.before = r.consumedAt := by
  funext n
  rw [before, h]
  rfl

theorem after_forward {r : Solution φ} (h : r.direction = .forward) : r.after = r.producedAt := by
  funext n
  rw [after, h]
  rfl

theorem before_backward {r : Solution φ} (h : r.direction = .backward) :
    r.before = r.producedAt := by
  funext n
  rw [before, h]
  rfl

theorem after_backward {r : Solution φ} (h : r.direction = .backward) :
    r.after = r.consumedAt := by
  funext n
  rw [after, h]
  rfl

end Solution

namespace Analysis

/-- Facts for the nodes of a graph that satisfy the inequations of an analysis. The start node
consumes nothing; what it produces is above the boundary. -/
structure IsSolution (a : Analysis φ) (le : φ → φ → Prop) (g : Graph)
    (consumed produced : Node → φ) : Prop where
  boundary_le : le (a.boundary g.method) (produced (startNode a.direction))
  flow_le : ∀ n ∈ g.nodes, n ≠ startNode a.direction → ∀ p ∈ sources a.direction g n,
    le (produced p) (consumed n)
  transfer_le : ∀ n ∈ g.nodes, n ≠ startNode a.direction →
    ∃ f, a.transfer (g.method.stmtAt n) (consumed n) = .ok f ∧ le f (produced n)

/-- A solution below every solution, node by node. -/
structure IsLeastSolution (a : Analysis φ) (le : φ → φ → Prop) (g : Graph)
    (consumed produced : Node → φ) : Prop extends IsSolution a le g consumed produced where
  least : ∀ consumed' produced', IsSolution a le g consumed' produced' →
    ∀ n ∈ g.nodes, le (consumed n) (consumed' n) ∧ le (produced n) (produced' n)

end Analysis

section
variable {a : Analysis φ} {valid : φ → Prop} {le : φ → φ → Prop} {g : Graph} {s : Strategy}
  {bound : Int} {r : Solution φ} {consumed produced : Node → φ}

theorem solve_eq (h : solve a s bound g = .ok r) :
    r.direction = a.direction ∧ ∃ st, run a g bound.toNat (start a s g) = .ok st ∧
      r.consumedAt = st.consumedAt a ∧ r.producedAt = st.producedAt a ∧
      (r.converged = true → st.worklist.members = []) := by
  rw [solve] at h
  cases hr : run a g bound.toNat (start a s g) with
  | error e =>
    rw [hr] at h
    cases h
  | ok st =>
    rw [hr] at h
    cases h
    exact ⟨rfl, st, rfl, rfl, rfl, List.isEmpty_iff.mp⟩

theorem solve_ok (hl : a.Lawful valid le) (hg : g.Consistent) (s : Strategy) (bound : Int) :
    ∃ r, solve a s bound g = .ok r := by
  obtain ⟨st, hst⟩ := run_ok hl hg bound.toNat (start_invariant hl s g)
  rw [solve, hst]
  exact ⟨_, rfl⟩

theorem run_invariant (hl : a.Lawful valid le) (hg : g.Consistent) {n : Nat} {st : State φ}
    (h : run a g n (start a s g) = .ok st) : st.Invariant a valid le g :=
  run_induction (fun _ _ _ _ hst hpop hs => step_invariant hl hg hst hpop hs) h
    (start_invariant hl s g)

theorem solve_valid (hl : a.Lawful valid le) (hg : g.Consistent) (h : solve a s bound g = .ok r)
    (n : Node) : valid (r.consumedAt n) ∧ valid (r.producedAt n) := by
  obtain ⟨-, st, hrun, hc, hp, -⟩ := solve_eq h
  have hinv := run_invariant hl hg hrun
  rw [hc, hp]
  exact ⟨hinv.consumed_valid n, hinv.produced_valid n⟩

/-- After a converged run the start node still produces the boundary and every other node is
settled. -/
theorem solve_settled (hl : a.Lawful valid le) (hg : g.Consistent) (h : solve a s bound g = .ok r)
    (hr : r.converged = true) :
    r.producedAt (startNode a.direction) = a.boundary g.method ∧
      ∀ n ∈ g.nodes, n ≠ startNode a.direction →
        a.transfer (g.method.stmtAt n) (r.consumedAt n) = .ok (r.producedAt n) ∧
        ∀ p ∈ sources a.direction g n, le (r.producedAt p) (r.consumedAt n) := by
  obtain ⟨-, st, hrun, hc, hp, hempty⟩ := solve_eq h
  have hinv := run_invariant hl hg hrun
  rw [hc, hp]
  refine ⟨hinv.start_produced, fun n hn hs => ?_⟩
  have hset := hinv.settled n (Graph.mem_nodes.mp hn) hs (by rw [hempty hr]; exact List.not_mem_nil)
  exact ⟨hset.transfer_eq, hset.flow_le⟩

theorem solve_isSolution (hl : a.Lawful valid le) (hg : g.Consistent)
    (h : solve a s bound g = .ok r) (hr : r.converged = true) :
    a.IsSolution le g r.consumedAt r.producedAt := by
  obtain ⟨hstart, hset⟩ := solve_settled hl hg h hr
  constructor
  · rw [hstart]
    exact hl.refl _
  · exact fun n hn hs => (hset n hn hs).2
  · exact fun n hn hs => ⟨_, (hset n hn hs).1, hl.refl _⟩

theorem stmt_ne_startNode (i : Nat) (d : Direction) : Node.stmt i ≠ startNode d := by
  cases d <;> exact nofun

theorem solve_transfer (hl : a.Lawful valid le) {m : Method} (hb : Graph.build m = .ok g)
    (h : solve a s bound g = .ok r) (hr : r.converged = true) {i : Nat} {st : Stmt Nat}
    (hst : m.body[i]? = some st) :
    a.transfer st (r.consumedAt (.stmt i)) = .ok (r.producedAt (.stmt i)) := by
  obtain ⟨hgm, hg, -⟩ := Graph.build_spec hb
  have hn : Node.stmt i ∈ g.nodes := by
    rw [Graph.mem_nodes, Graph.contains, hgm]
    exact decide_eq_true (Method.lt_size_of_body hst)
  have hset := (solve_settled hl hg h hr).2 (.stmt i) hn (stmt_ne_startNode i _)
  rw [hgm, Method.stmtAt_of_body hst] at hset
  exact hset.1

/-- What a node produces flows to its targets. -/
theorem solve_flow (hl : a.Lawful valid le) (hg : g.Consistent) (h : solve a s bound g = .ok r)
    (hr : r.converged = true) {n p : Node} (hp : p ∈ sources a.direction g n)
    (hn : n ≠ startNode a.direction) : le (r.producedAt p) (r.consumedAt n) := by
  have hcontains := contains_of_mem_targets hg ((mem_sources_iff hg _).mp hp)
  exact ((solve_settled hl hg h hr).2 n (Graph.mem_nodes.mpr hcontains.2) hn).2 p hp

/-- No fact of a state is above what other facts allow. -/
def State.Below (a : Analysis φ) (le : φ → φ → Prop) (g : Graph) (st : State φ)
    (consumed produced : Node → φ) : Prop :=
  ∀ n ∈ g.nodes, le (st.consumedAt a n) (consumed n) ∧ le (st.producedAt a n) (produced n)

/-- The transfer of a node takes facts below what it consumes under a solution to facts below what
it produces there. -/
def Analysis.Respects (a : Analysis φ) (valid : φ → Prop) (le : φ → φ → Prop) (g : Graph)
    (consumed produced : Node → φ) : Prop :=
  ∀ n ∈ g.nodes, ∀ f h, valid f → le f (consumed n) →
    a.transfer (g.method.stmtAt n) f = .ok h → n ≠ startNode a.direction → le h (produced n)

theorem step_below (hl : a.Lawful valid le) (hg : g.Consistent)
    (hsol : a.IsSolution le g consumed produced)
    (hmono : a.Respects valid le g consumed produced) {st st' : State φ} {n : Node}
    {rest : Worklist Node} (hinv : st.Invariant a valid le g)
    (hpop : st.worklist.pop? = some (n, rest)) (h : step a g st n rest = .ok st')
    (hst : State.Below a le g st consumed produced) :
    State.Below a le g st' consumed produced := by
  obtain ⟨hgn, hstart⟩ := hinv.pending n (Worklist.pop?_eq_some hpop).1
  have hn := Graph.mem_nodes.mpr hgn
  obtain ⟨hcv, -, -, hleast⟩ := hinv.consume_spec hl n
  obtain ⟨f, hf, hc, hp⟩ := hinv.step_facts hgn h
  have hconsume : le (consume a g st n) (consumed n) := by
    apply hleast _ (hst n hn).1
    intro p hp
    have hpn := Graph.mem_nodes.mpr (contains_of_mem_sources hg hp)
    exact hl.trans (hst p hpn).2 (hsol.flow_le n hn hstart p hp)
  have hproduce : le f (produced n) := hmono n hn _ f hcv hconsume hf hstart
  intro k hk
  rw [hc, hp]
  by_cases hkn : n = k
  · subst hkn
    rw [if_pos rfl, if_pos rfl]
    exact ⟨hconsume, hproduce⟩
  · rw [if_neg hkn, if_neg hkn]
    exact hst k hk

theorem start_below (hl : a.Lawful valid le) (hsol : a.IsSolution le g consumed produced) :
    State.Below a le g (start a s g) consumed produced := by
  intro n _
  rw [start_consumedAt, start_producedAt]
  refine ⟨hl.initial_le _, ?_⟩
  split
  · next hn =>
    subst hn
    exact hsol.boundary_le
  · exact hl.initial_le _

/-- The facts of a run, converged or not, stay below every solution that the transfer respects. -/
theorem solve_below (hl : a.Lawful valid le) (hg : g.Consistent)
    (hsol : a.IsSolution le g consumed produced)
    (hmono : a.Respects valid le g consumed produced) (h : solve a s bound g = .ok r) :
    ∀ n ∈ g.nodes, le (r.consumedAt n) (consumed n) ∧ le (r.producedAt n) (produced n) := by
  obtain ⟨-, st, hrun, hc, hp, -⟩ := solve_eq h
  rw [hc, hp]
  have hboth : st.Invariant a valid le g ∧ State.Below a le g st consumed produced := by
    apply run_induction (P := fun st => st.Invariant a valid le g ∧
      State.Below a le g st consumed produced) _ hrun
    · exact ⟨start_invariant hl s g, start_below hl hsol⟩
    · rintro st n rest st' ⟨hinv, hst⟩ hpop hs
      exact ⟨step_invariant hl hg hinv hpop hs, step_below hl hg hsol hmono hinv hpop hs hst⟩
  exact hboth.2

theorem solve_outside (hl : a.Lawful valid le) (hg : g.Consistent)
    (h : solve a s bound g = .ok r) {n : Node} (hn : g.contains n = false) :
    r.consumedAt n = a.initial ∧ r.producedAt n = a.initial := by
  obtain ⟨-, st, hrun, hc, hp, -⟩ := solve_eq h
  have hinv := run_invariant hl hg hrun
  rw [hc, hp]
  exact ⟨NodeMap.getD_of_not_hasNode hinv.consumed_size hn _,
    NodeMap.getD_of_not_hasNode hinv.produced_size hn _⟩

/-- Two converged runs that respect each other's solutions end with the same facts. -/
theorem solve_same (hl : a.Lawful valid le) (hg : g.Consistent) {s' : Strategy} {bound' : Int}
    {r' : Solution φ} (h : solve a s bound g = .ok r) (hr : r.converged = true)
    (hresp : a.Respects valid le g r.consumedAt r.producedAt)
    (h' : solve a s' bound' g = .ok r') (hr' : r'.converged = true)
    (hresp' : a.Respects valid le g r'.consumedAt r'.producedAt) (n : Node) :
    a.same (r.consumedAt n) (r'.consumedAt n) = true ∧
      a.same (r.producedAt n) (r'.producedAt n) = true := by
  have hv := solve_valid hl hg h n
  have hv' := solve_valid hl hg h' n
  rw [hl.same_iff hv.1 hv'.1, hl.same_iff hv.2 hv'.2]
  by_cases hn : g.contains n = true
  · have hmem := Graph.mem_nodes.mpr hn
    have hle := solve_below hl hg (solve_isSolution hl hg h' hr') hresp' h n hmem
    have hge := solve_below hl hg (solve_isSolution hl hg h hr) hresp h' n hmem
    exact ⟨⟨hle.1, hge.1⟩, hle.2, hge.2⟩
  · rw [Bool.not_eq_true] at hn
    obtain ⟨hc, hp⟩ := solve_outside hl hg h hn
    obtain ⟨hc', hp'⟩ := solve_outside hl hg h' hn
    rw [hc, hp, hc', hp']
    exact ⟨⟨hl.refl _, hl.refl _⟩, hl.refl _, hl.refl _⟩

end

end FlowLint
