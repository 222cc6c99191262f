import FlowLint.Proofs.Dataflow.ConstantPropagation
import FlowLint.Proofs.Dataflow.Liveness
import FlowLint.Proofs.Dataflow.Visits
import FlowLint.Proofs.Graph.Orders

/-! # A single pass over an acyclic graph

By rank the nodes of an acyclic graph are visited behind their sources. So each of them is visited
once, when what its sources produce is final, and the facts of the run solve the equations of the
analysis and not only its inequations, whatever the transfer does.
-/
namespace FlowLint

namespace Graph
variable {g : Graph}

/-- No edges lead from a node back to it. -/
def Acyclic (g : Graph) : Prop := ∀ n, ¬Relation.TransGen g.Leads n n

/-- A graph whose edges all lead upwards is acyclic. -/
theorem acyclic_of_lt (height : Node → Nat)
    (h : ∀ e ∈ g.edges, height e.source < height e.target) : g.Acyclic := by
  have hup : ∀ {n k}, Relation.TransGen g.Leads n k → height n < height k := by
    intro n k hnk
    induction hnk with
    | single hstep =>
      obtain ⟨e, he, rfl, rfl⟩ := hstep
      exact h e he
    | tail _ hstep ih =>
      obtain ⟨e, he, rfl, rfl⟩ := hstep
      exact Nat.lt_trans ih (h e he)
  exact fun n hn => Nat.lt_irrefl _ (hup hn)

end Graph

/-- The meet of facts, which is the initial fact if there are none. -/
def Analysis.meet {φ : Type} (a : Analysis φ) (fs : List φ) : φ :=
  fs.foldl (fun c f => a.merge f c) a.initial

/-- Facts for the nodes of a graph that satisfy the equations of an analysis: the start node
produces the boundary, every other node consumes the meet of what its sources produce and produces
the transfer of what it consumes. -/
structure Analysis.IsExactSolution {φ : Type} (a : Analysis φ) (g : Graph)
    (consumed produced : Node → φ) : Prop where
  boundary_eq : produced (Solver.startNode a.direction) = a.boundary g.method
  flow_eq : ∀ n ∈ g.nodes, n ≠ Solver.startNode a.direction →
    consumed n = a.meet ((Solver.sources a.direction g n).map produced)
  transfer_eq : ∀ n ∈ g.nodes, n ≠ Solver.startNode a.direction →
    a.transfer (g.method.stmtAt n) (consumed n) = .ok (produced n)

namespace Solver
variable {φ : Type} {a : Analysis φ} {valid : φ → Prop} {le : φ → φ → Prop} {g : Graph}
  {d : Direction} {st st' : State φ} {n k : Node} {ns order : List Node} {rank : Node → Nat}

theorem getD_foldl_set {β : Type} {m : Method} {ps : List (Node × β)} {f : NodeMap β}
    (hf : f.body.size = m.size) (hps : ∀ p ∈ ps, m.hasNode p.1 = true)
    (hnodup : (ps.map Prod.fst).Nodup) (b : β) :
    (∀ p ∈ ps, (ps.foldl (fun f p => f.set p.1 p.2) f).getD p.1 b = p.2) ∧
      ∀ n ∉ ps.map Prod.fst, (ps.foldl (fun f p => f.set p.1 p.2) f).getD n b = f.getD n b := by
  induction ps generalizing f with
  | nil => exact ⟨nofun, fun _ _ => rfl⟩
  | cons p ps ih =>
    obtain ⟨hp, hps⟩ := List.forall_mem_cons.mp hps
    obtain ⟨hfresh, hnodup⟩ := List.nodup_cons.mp hnodup
    obtain ⟨hset, hkept⟩ := ih ((NodeMap.size_set f p.1 p.2).trans hf) hps hnodup
    refine ⟨List.forall_mem_cons.mpr ⟨?_, hset⟩, fun n hn => ?_⟩
    · exact (hkept _ hfresh).trans ((NodeMap.getD_set hf hp _ _).trans (if_pos rfl))
    · rw [List.map_cons, List.mem_cons, not_or] at hn
      exact (hkept _ hn.2).trans ((NodeMap.getD_set hf hp _ _).trans (if_neg (Ne.symm hn.1)))

/-- Ranks ascend along an order. -/
theorem ranks_pairwise {m : Method} (hnodup : order.Nodup)
    (hnodes : ∀ n ∈ order, m.hasNode n = true) :
    order.Pairwise fun n k => (ranks m.size order).getD n 0 < (ranks m.size order).getD k 0 := by
  have hkeys : order.zipIdx.map Prod.fst = order := List.zipIdx_map_fst 0 order
  have hps : ∀ p ∈ order.zipIdx, m.hasNode p.1 = true := by
    intro p hp
    rw [← hkeys] at hnodes
    exact hnodes p.1 (List.mem_map_of_mem hp)
  have hrank := (getD_foldl_set (f := .replicate m.size 0) Array.size_replicate hps
    (hkeys.symm ▸ hnodup) 0).1
  have hall : (order.zipIdx.map Prod.fst).Pairwise fun n k =>
      (ranks m.size order).getD n 0 < (ranks m.size order).getD k 0 := by
    refine List.pairwise_map.mpr ((pairwise_zipIdx order 0).imp_of_mem ?_)
    intro p q hp hq hlt
    rw [ranks, hrank p hp, hrank q hq]
    exact hlt
  rwa [hkeys] at hall

section
variable (hg : g.Consistent)
include hg

theorem not_reaches_of_acyclic (hacyclic : g.Acyclic) (hk : k ∈ targets d g n) :
    ¬Walk.Reaches (targets d g) k n := by
  intro hback
  cases d with
  | forward =>
    have hreach : g.Reaches k n := (Graph.reaches_successors hg).mp hback
    exact hacyclic n (.head' ((Graph.mem_successors hg).mp hk) hreach)
  | backward =>
    have hreach : g.Reaches n k := (Graph.reaches_predecessors hg).mp hback
    exact hacyclic k (.head' ((Graph.mem_predecessors hg).mp hk) hreach)

/-- The order by rank is the reverse of the order in which a walk finishes the nodes, if it comes to
all of them. -/
theorem initialOrder_rpo (hreach : ∀ n ∈ g.nodes, Walk.Reaches (targets d g) (startNode d) n) :
    initialOrder .rpo d g =
      (Walk.depthFirst (targets d g) g.nodes (startNode d)).1.reverse := by
  have hstart : startNode d ∈ g.nodes := Graph.mem_nodes.mpr (contains_startNode g d)
  have hnext : ∀ n, ∀ k ∈ targets d g n, k ∈ g.nodes := fun n k hk =>
    Graph.mem_nodes.mpr (contains_of_mem_targets hg hk).2
  have hleft : (Walk.depthFirst (targets d g) g.nodes (startNode d)).2 = [] := by
    rw [Walk.depthFirst_left (Graph.nodup_nodes g) hstart, List.filter_eq_nil_iff]
    intro n hn
    rw [decide_eq_true_iff, not_not, Walk.mem_depthFirst_done (Graph.nodup_nodes g) hstart hnext]
    exact hreach n hn
  cases d with
  | forward =>
    change ((Walk.depthFirst (targets .forward g) g.nodes .entry).1 ++
      (Walk.depthFirst (targets .forward g) g.nodes .entry).2).reverse = _
    rw [startNode] at hleft ⊢
    rw [hleft, List.append_nil]
  | backward =>
    change (Walk.depthFirst (targets .backward g) g.nodes .exit).1.reverse ++
      (Walk.depthFirst (targets .backward g) g.nodes .exit).2 = _
    rw [startNode] at hleft ⊢
    rw [hleft, List.append_nil]

/-- In the order by rank no node of an acyclic graph is behind one that consumes what it
produces. -/
theorem sources_first (hacyclic : g.Acyclic)
    (hreach : ∀ n ∈ g.nodes, Walk.Reaches (targets d g) (startNode d) n) :
    (initialOrder .rpo d g).Pairwise fun n k => k ∉ sources d g n := by
  rw [initialOrder_rpo hg hreach, List.pairwise_reverse]
  refine (Walk.pairwise_depthFirst (targets d g) (Graph.nodup_nodes g) (startNode d)).imp ?_
  intro n k hback hn
  have hk : k ∈ targets d g n := (mem_sources_iff hg d).mp hn
  exact not_reaches_of_acyclic hg hacyclic hk (hback hk)

end

/-- Nodes are pending in an order in which sources come first, together with all that consumes what
they produce, and consume nothing yet. -/
structure State.Ready (a : Analysis φ) (g : Graph) (rank : Node → Nat) (ns : List Node)
    (st : State φ) : Prop where
  worklist_eq : st.worklist = ⟨.rpo, rank, ns⟩
  ranked : ns.Pairwise fun n k => rank n < rank k
  sources_first : ns.Pairwise fun n k => k ∉ sources a.direction g n
  not_own_source : ∀ n ∈ ns, n ∉ sources a.direction g n
  targets_pending : ∀ n ∈ ns, ∀ k ∈ targets a.direction g n, k ≠ startNode a.direction → k ∈ ns
  initial : ∀ n ∈ ns, st.consumedAt a n = a.initial

namespace State.Ready

theorem pop?_eq (h : st.Ready a g rank (n :: ns)) :
    st.worklist.pop? = some (n, ⟨.rpo, rank, ns⟩) := by
  rw [h.worklist_eq]
  exact Worklist.pop?_rpo fun k hk => Nat.le_of_lt ((List.pairwise_cons.mp h.ranked).1 k hk)

theorem head_not_mem (h : st.Ready a g rank (n :: ns)) : n ∉ ns := fun hn =>
  Nat.lt_irrefl _ ((List.pairwise_cons.mp h.ranked).1 n hn)

theorem consume_eq (h : st.Ready a g rank (n :: ns)) :
    consume a g st n = a.meet ((sources a.direction g n).map (st.producedAt a)) := by
  have hn := h.initial n List.mem_cons_self
  rw [State.consumedAt] at hn
  rw [consume, hn, Analysis.meet, List.foldl_map]
  rfl

/-- A visit to the first node makes no other one pending that is not pending already. -/
theorem step (hg : g.Consistent) (h : st.Ready a g rank (n :: ns)) (hst : st.Invariant a valid le g)
    (hs : Solver.step a g st n ⟨.rpo, rank, ns⟩ = .ok st') : st'.Ready a g rank ns := by
  obtain ⟨-, -, hconsumed, -⟩ := hst.visit_facts h.pop?_eq hs
  obtain ⟨-, hranked⟩ := List.pairwise_cons.mp h.ranked
  obtain ⟨hlater, hfirst⟩ := List.pairwise_cons.mp h.sources_first
  obtain ⟨hown, hnot⟩ := List.forall_mem_cons.mp h.not_own_source
  obtain ⟨htargets, hpending⟩ := List.forall_mem_cons.mp h.targets_pending
  have hworklist : st'.worklist = ⟨.rpo, rank, ns⟩ := by
    obtain ⟨f, -, rfl⟩ := step_eq hs
    dsimp only
    split
    · refine Worklist.pushAll_of_subset fun k hk => ?_
      obtain ⟨hk, hstart⟩ := List.mem_filter.mp hk
      have hne : k ≠ n := by
        rintro rfl
        exact hown ((mem_sources_iff hg _).mpr hk)
      exact (List.mem_cons.mp (htargets k hk (of_decide_eq_true hstart))).resolve_left hne
    · rfl
  refine ⟨hworklist, hranked, hfirst, hnot, fun k hk j hj hstart => ?_, fun k hk => ?_⟩
  · have hne : j ≠ n := by
      rintro rfl
      exact hlater k hk ((mem_sources_iff hg _).mpr hj)
    exact (List.mem_cons.mp (hpending k hk j hj hstart)).resolve_left hne
  · have hne : n ≠ k := fun he => h.head_not_mem (he ▸ hk)
    rw [hconsumed, if_neg hne]
    exact h.initial k (List.mem_cons_of_mem _ hk)

/-- Visits to the nodes in their order leave nothing pending, change the facts of no other node, and
let each of them consume the meet of what its sources produce in the end. -/
theorem exists_pass (hl : a.Lawful valid le) (hg : g.Consistent) (h : st.Ready a g rank ns)
    (hst : st.Invariant a valid le g) : ∃ st', Visits a g st ns st' ∧ st'.worklist.members = [] ∧
      (∀ k ∉ ns, st'.consumedAt a k = st.consumedAt a k ∧
        st'.producedAt a k = st.producedAt a k) ∧
      ∀ k ∈ ns, st'.consumedAt a k =
        a.meet ((sources a.direction g k).map (st'.producedAt a)) := by
  induction ns generalizing st with
  | nil => exact ⟨st, .nil st, congrArg _ h.worklist_eq, fun _ _ => ⟨rfl, rfl⟩, nofun⟩
  | cons n ns ih =>
    obtain ⟨st₁, hs⟩ := exists_step hl hst n ⟨.rpo, rank, ns⟩
    obtain ⟨f, -, hconsumed, hproduced⟩ := hst.visit_facts h.pop?_eq hs
    obtain ⟨st', hvisits, hempty, hkept, hmeet⟩ :=
      ih (h.step hg hst hs) (step_invariant hl hg hst h.pop?_eq hs)
    refine ⟨st', .cons h.pop?_eq hs hvisits, hempty, fun k hk => ?_,
      List.forall_mem_cons.mpr ⟨?_, hmeet⟩⟩
    · rw [List.mem_cons, not_or] at hk
      rw [(hkept k hk.2).1, (hkept k hk.2).2, hconsumed, hproduced, if_neg (Ne.symm hk.1),
        if_neg (Ne.symm hk.1)]
      exact ⟨rfl, rfl⟩
    · rw [(hkept n h.head_not_mem).1, hconsumed, if_pos rfl, h.consume_eq]
      refine congrArg a.meet (List.map_congr_left fun p hp => ?_)
      -- a source is neither the node itself nor one that is visited later
      have hne : n ≠ p := fun he => h.not_own_source n List.mem_cons_self (he ▸ hp)
      have hnot : p ∉ ns := fun hmem => (List.pairwise_cons.mp h.sources_first).1 p hmem hp
      rw [(hkept p hnot).2, hproduced, if_neg hne]

end State.Ready

theorem nodup_initialOrder (hg : g.Consistent) (d : Direction) :
    (initialOrder .rpo d g).Nodup := by
  cases d with
  | forward => exact List.nodup_reverse.mpr (Graph.postorder_finishesFrom hg rfl).nodup
  | backward => exact (Graph.backwardOrder_leadsBack hg).nodup

theorem length_pending (hg : g.Consistent) (d : Direction) :
    ((initialOrder .rpo d g).filter (· ≠ startNode d)).length = g.nodes.length - 1 := by
  have hnodup := nodup_initialOrder hg d
  have hmem := mem_initialOrder .rpo d g
  have hperm : (initialOrder .rpo d g).Perm g.nodes :=
    (List.perm_ext_iff_of_nodup hnodup (Graph.nodup_nodes g)).mpr fun n =>
      (hmem n).trans Graph.mem_nodes.symm
  have herase : (initialOrder .rpo d g).filter (· ≠ startNode d) =
      (initialOrder .rpo d g).erase (startNode d) := by
    rw [hnodup.erase_eq_filter]
    exact List.filter_congr fun n _ => by simp [bne, beq_eq_decide]
  rw [herase, List.length_erase_of_mem ((hmem _).mpr (contains_startNode g d)), hperm.length_eq]

section
variable (hl : a.Lawful valid le) (hg : g.Consistent) (hacyclic : g.Acyclic)
  (hreach : ∀ n ∈ g.nodes, Walk.Reaches (targets a.direction g) (startNode a.direction) n)
include hg hacyclic hreach

/-- By rank all nodes of an acyclic graph are ready but the start node. -/
theorem start_ready : ∃ rank, (start a .rpo g).Ready a g rank
    ((initialOrder .rpo a.direction g).filter (· ≠ startNode a.direction)) := by
  have hmem := mem_initialOrder .rpo a.direction g
  have hnodup := nodup_initialOrder hg a.direction
  have hranked := ranks_pairwise hnodup fun n hn => (hmem n).mp hn
  have hfirst := sources_first hg hacyclic hreach
  refine ⟨fun n => (ranks g.method.size (initialOrder .rpo a.direction g)).getD n 0, ?_,
    hranked.filter _, hfirst.filter _, fun n _ hn => ?_, fun n _ k hk hstart => ?_, fun n _ => ?_⟩
  · exact Worklist.pushAll_of_nodup (hnodup.filter _)
  · exact not_reaches_of_acyclic hg hacyclic ((mem_sources_iff hg _).mp hn) .refl
  · have hk := (hmem k).mpr (contains_of_mem_targets hg hk).2
    exact List.mem_filter.mpr ⟨hk, decide_eq_true hstart⟩
  · exact start_consumedAt .rpo g n

include hl

/-- By rank a single visit to every node but the start solves the equations on an acyclic graph,
if the start leads to all nodes. -/
theorem solve_pass {bound : Int} (hbound : (g.nodes.length : Int) - 1 ≤ bound) :
    ∃ r, solve a .rpo bound g = .ok r ∧ r.converged = true ∧ r.iterations = g.nodes.length - 1 ∧
      a.IsExactSolution g r.consumedAt r.producedAt := by
  obtain ⟨rank, hready⟩ := start_ready (a := a) hg hacyclic hreach
  have hst := start_invariant hl .rpo g
  obtain ⟨st, hvisits, hempty, -, hmeet⟩ := hready.exists_pass hl hg hst
  have hlength := length_pending hg a.direction
  have hpending : ∀ n ∈ g.nodes, n ≠ startNode a.direction →
      n ∈ (initialOrder .rpo a.direction g).filter (· ≠ startNode a.direction) := by
    intro n hn hstart
    have hn := (mem_initialOrder .rpo a.direction g n).mpr (Graph.mem_nodes.mp hn)
    exact List.mem_filter.mpr ⟨hn, decide_eq_true hstart⟩
  have hrun : run a g bound.toNat (start a .rpo g) = .ok st :=
    hvisits.run_eq (by omega) fun _ => hempty
  refine ⟨st.solution a g, ?_, State.solution_converged.mpr hempty, ?_, ?_, ?_, ?_⟩
  · rw [solve_eq_map, hrun]
    rfl
  · exact hvisits.iterations_eq.trans ((Nat.zero_add _).trans hlength)
  · exact (hvisits.invariant hl hg hst).start_produced
  · exact fun n hn hstart => hmeet n (hpending n hn hstart)
  · exact fun n hn hstart => hvisits.balanced hl hg hst n (hpending n hn hstart)

end

end Solver

/-- On an acyclic graph the order by rank needs one visit for every node but the start, under every
bound that allows these, and then the facts solve the equations exactly: constant propagation if all
nodes are reached from the entry, and liveness if all nodes reach the exit. -/
theorem solve_acyclic {m : Method} {g : Graph} (h : Graph.Made m g) (hacyclic : g.Acyclic) :
    ((∀ n ∈ g.nodes, Relation.ReflTransGen g.Leads .entry n) →
      ∀ bound : Int, (g.nodes.length : Int) - 1 ≤ bound →
        ∃ r, solve ConstantPropagation.analysis .rpo bound g = .ok r ∧ r.converged = true ∧
          r.iterations = g.nodes.length - 1 ∧
          ConstantPropagation.analysis.IsExactSolution g r.before r.after) ∧
    ((∀ n ∈ g.nodes, Relation.ReflTransGen g.Leads n .exit) →
      ∀ bound : Int, (g.nodes.length : Int) - 1 ≤ bound →
        ∃ r, solve Liveness.analysis .rpo bound g = .ok r ∧ r.converged = true ∧
          r.iterations = g.nodes.length - 1 ∧
          Liveness.analysis.IsExactSolution g r.after r.before) := by
  have hg := h.consistent
  constructor
  · intro hreach bound hbound
    obtain ⟨r, hr, hconv, hiterations, hexact⟩ := Solver.solve_pass ConstantPropagation.lawful hg
      hacyclic (fun n hn => (Graph.reaches_successors hg).mpr (hreach n hn)) hbound
    refine ⟨r, hr, hconv, hiterations, ?_⟩
    rwa [Solution.before_forward (solve_eq hr).1, Solution.after_forward (solve_eq hr).1]
  · intro hreach bound hbound
    obtain ⟨r, hr, hconv, hiterations, hexact⟩ := Solver.solve_pass Liveness.lawful hg
      hacyclic (fun n hn => (Graph.reaches_predecessors hg).mpr (hreach n hn)) hbound
    refine ⟨r, hr, hconv, hiterations, ?_⟩
    rwa [Solution.before_backward (solve_eq hr).1, Solution.after_backward (solve_eq hr).1]

/-- A quotient of a parameter and a variable that is zero on one path and not assigned on the other
one. The zero stands behind the quotient. -/
def zeroBehind : Method where
  name := "behind"
  file := "behind.ir"
  params := [⟨"p", "p", .prim .int⟩]
  body := [
    ⟨1, .branch (.bin .eq (.var ⟨"p", "p", .prim .int⟩) (.lit 0)) (some 3)⟩,
    ⟨2, .assign (.var ⟨"z", "z", .prim .int⟩)
      (.bin .div (.var ⟨"p", "p", .prim .int⟩) (.var ⟨"y", "y", .prim .int⟩))⟩,
    ⟨3, .ret (some (.var ⟨"z", "z", .prim .int⟩))⟩,
    ⟨4, .assign (.var ⟨"y", "y", .prim .int⟩) (.lit 0)⟩,
    ⟨5, .goto (some 1)⟩]
  targets_lt := by decide

/-- By rank the zero is known before the quotient, of which nothing is known afterwards. In the
order of the statements the quotient is visited first and stays no constant. -/
theorem zeroBehind_single_pass : ∃ g, Graph.build zeroBehind = .ok g ∧ g.Acyclic ∧
    (∀ n ∈ g.nodes, Relation.ReflTransGen g.Leads .entry n) ∧
    (∀ n ∈ g.nodes, Relation.ReflTransGen g.Leads n .exit) ∧
    (∃ r, solve ConstantPropagation.analysis .rpo 6 g = .ok r ∧ r.converged = true ∧
      r.iterations = g.nodes.length - 1 ∧
      ConstantPropagation.analysis.IsExactSolution g r.before r.after ∧
      (r.before (.stmt 2)).get ⟨"z", "z", .prim .int⟩ = .undef) ∧
    (∃ r, solve ConstantPropagation.analysis .fifo 100 g = .ok r ∧ r.converged = true ∧
      (r.before (.stmt 2)).get ⟨"z", "z", .prim .int⟩ = .nac) ∧
    ∃ r, solve Liveness.analysis .rpo 6 g = .ok r ∧ r.converged = true ∧
      r.iterations = g.nodes.length - 1 ∧ Liveness.analysis.IsExactSolution g r.after r.before := by
  let order : List Node := [.entry, .stmt 0, .stmt 3, .stmt 4, .stmt 1, .stmt 2]
  obtain ⟨g, hb, hup, hfrom, hto, hrank, hfifo⟩ : ∃ g, Graph.build zeroBehind = .ok g ∧
      (∀ e ∈ g.edges, order.idxOf e.source < order.idxOf e.target) ∧
      (∀ n ∈ g.nodes, n ∈ g.reachableFrom .entry) ∧ (∀ n ∈ g.nodes, .exit ∈ g.reachableFrom n) ∧
      ((solve ConstantPropagation.analysis .rpo 6 g).toOption.map fun r =>
        (r.before (.stmt 2)).get ⟨"z", "z", .prim .int⟩) = some .undef ∧
      ∃ r, solve ConstantPropagation.analysis .fifo 100 g = .ok r ∧ r.converged = true ∧
        (r.before (.stmt 2)).get ⟨"z", "z", .prim .int⟩ = .nac :=
    ⟨_, rfl, by decide, by decide +kernel, by decide +kernel, by decide +kernel, _, rfl, rfl, rfl⟩
  have hmade : Graph.Made zeroBehind g := (Graph.Grown.build hb).made
  have hacyclic := Graph.acyclic_of_lt (fun n => order.idxOf n) hup
  have hreach : ∀ n ∈ g.nodes, Relation.ReflTransGen g.Leads .entry n := fun n hn =>
    ((Graph.reachableFrom_spec hmade.consistent rfl).2 n).mp (hfrom n hn)
  have hexit : ∀ n ∈ g.nodes, Relation.ReflTransGen g.Leads n .exit := fun n hn =>
    ((Graph.reachableFrom_spec hmade.consistent (Graph.mem_nodes.mp hn)).2 .exit).mp (hto n hn)
  have hlength : (g.nodes.length : Int) - 1 ≤ 6 := by
    rw [Graph.nodes, hmade.method_eq]
    decide
  obtain ⟨hforward, hbackward⟩ := solve_acyclic hmade hacyclic
  obtain ⟨r, hr, hconv, hiterations, hexact⟩ := hforward hreach 6 hlength
  rw [hr] at hrank
  exact ⟨g, hb, hacyclic, hreach, hexit,
    ⟨r, hr, hconv, hiterations, hexact, Option.some.inj hrank⟩, hfifo,
    hbackward hexit 6 hlength⟩

end FlowLint
