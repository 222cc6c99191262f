import FlowLint.Proofs.Graph.DepthFirst
import FlowLint.Proofs.Graph.Flow
import Mathlib.Data.List.Nodup

/-! # Orders of the nodes

The walks over a graph against the edges: what is reachable is what the edges lead to, and the
orders that come from depth-first walks hold every node once, put the reachable ones together, and
put a node behind those that it leads to unless they lead back to it.
-/
namespace FlowLint

theorem idxOf_lt_of_pairwise {α : Type} [DecidableEq α] {R : α → α → Prop} {l : List α} {a b : α}
    (h : l.Pairwise R) (ha : a ∈ l) (hb : b ∈ l) (hne : a ≠ b) (hR : ¬R a b) :
    l.idxOf b < l.idxOf a := by
  by_contra hle
  have hlt : l.idxOf a < l.idxOf b := by
    refine Nat.lt_of_le_of_ne (Nat.not_lt.mp hle) fun he => hne ?_
    exact (List.idxOf_inj ha).mp he
  have hR' := List.pairwise_iff_getElem.mp h _ _ (List.idxOf_lt_length_iff.mpr ha)
    (List.idxOf_lt_length_iff.mpr hb) hlt
  rw [List.getElem_idxOf, List.getElem_idxOf] at hR'
  exact hR hR'

namespace Graph
variable {m : Method} {g : Graph} {start u v n : Node}

/-- Edges lead from a node to another one in any number of steps. -/
def Reaches (g : Graph) : Node → Node → Prop := Relation.ReflTransGen g.Leads

theorem reaches_successors (hg : g.Consistent) :
    Walk.Reaches g.successors u v ↔ g.Reaches u v := by
  have h : (fun a b => b ∈ g.successors a) = g.Leads := by
    funext a b
    exact propext (mem_successors hg)
  rw [Walk.Reaches, h]
  rfl

theorem reaches_predecessors (hg : g.Consistent) :
    Walk.Reaches g.predecessors u v ↔ g.Reaches v u := by
  have h : (fun a b => b ∈ g.predecessors a) = Function.swap g.Leads := by
    funext a b
    exact propext (mem_predecessors hg)
  rw [Walk.Reaches, h, Relation.reflTransGen_swap]
  rfl

theorem nodup_nodes (g : Graph) : g.nodes.Nodup := by
  have hstmts : ((List.range g.method.size).map Node.stmt).Nodup :=
    List.Nodup.map (fun _ _ => Node.stmt.inj) List.nodup_range
  rw [nodes, Method.nodes, List.nodup_append]
  refine ⟨List.nodup_cons.mpr ⟨by simp, hstmts⟩, by simp, by simp⟩

theorem mem_nodes_of_mem_successors (hg : g.Consistent) (h : v ∈ g.successors u) :
    u ∈ g.nodes ∧ v ∈ g.nodes :=
  (contains_of_mem_successors hg h).imp mem_nodes.mpr mem_nodes.mpr

theorem mem_nodes_of_mem_predecessors (hg : g.Consistent) (h : u ∈ g.predecessors v) :
    u ∈ g.nodes := (mem_nodes_of_mem_successors hg ((mem_predecessors_iff hg).mp h)).1

theorem reachableFrom_spec (hg : g.Consistent) (hs : g.contains start = true) :
    (g.reachableFrom start).Nodup ∧ ∀ n, n ∈ g.reachableFrom start ↔ g.Reaches start n := by
  have hmem : start ∈ g.nodes := mem_nodes.mpr hs
  have hnext : ∀ n, (.ok (g.successors n) : Except Empty (List Node)) = .ok (g.successors n) :=
    fun _ => rfl
  have hstay : ∀ n, ∀ k ∈ g.successors n, k ∈ g.nodes.erase start ∨ k ∈ [start] := by
    intro n k hk
    by_cases hne : k = start
    · exact .inr (List.mem_singleton.mpr hne)
    · have hkmem := (mem_nodes_of_mem_successors hg hk).2
      exact .inl ((List.mem_erase_of_ne hne).mpr hkmem)
  have hpending : ∀ n ∈ [start], n ∉ [start] → ∀ k ∈ g.successors n, k ∈ [start] :=
    fun n hn hnot => absurd hn hnot
  obtain ⟨found, hfound, hsub, hclosed⟩ := Walk.closure_spec hnext hstay hpending
  have heq : g.reachableFrom start = found := by
    rw [reachableFrom]
    split
    next closed hclosed => exact Except.ok.inj (hclosed.symm.trans hfound)
  have hnodup : ([start] ++ g.nodes.erase start).Nodup :=
    (List.perm_cons_erase hmem).nodup_iff.mp (nodup_nodes g)
  rw [heq]
  refine ⟨Walk.nodup_closure hnodup hfound, fun n => ⟨?_, fun h => ?_⟩⟩
  · have hstart : ∀ k ∈ [start], g.Reaches start k := by
      intro k hk
      rw [List.mem_singleton.mp hk]
      exact .refl
    refine Walk.closure_induction (fun k hk bs hbs b hb => ?_) hstart hstart hfound n
    cases hbs
    exact hk.tail ((mem_successors hg).mp hb)
  · induction h with
    | refl => exact hsub start (List.mem_singleton_self start)
    | tail _ hstep ih => exact hclosed _ ih _ ((mem_successors hg).mpr hstep)

/-- An order of the nodes in which a depth-first walk from a node finishes those that it finds. -/
structure FinishesFrom (g : Graph) (start : Node) (found order : List Node) : Prop where
  nodup : order.Nodup
  mem_iff : ∀ n, n ∈ order ↔ g.contains n = true
  /-- The nodes that are found come first. -/
  found_first : ∀ n, n ∈ order.take found.length ↔ n ∈ found
  start_last : (order.take found.length).getLast? = some start
  /-- The others follow in the order of the statements. -/
  rest : order.drop found.length = g.nodes.filter fun n => n ∉ found
  before : ∀ u v, g.Leads u v → g.Reaches start u → ¬g.Reaches v u →
    order.idxOf v < order.idxOf u

/-- An order of the nodes for a problem that is solved against the edges, from the exit. -/
structure LeadsBack (g : Graph) (order : List Node) : Prop where
  nodup : order.Nodup
  mem_iff : ∀ n, n ∈ order ↔ g.contains n = true
  exit_first : order.head? = some .exit
  /-- The nodes from which the exit is reached come before all others. -/
  reaching : ∀ u v, g.contains v = true → g.Reaches u .exit → ¬g.Reaches v .exit →
    order.idxOf u < order.idxOf v
  before : ∀ u v, g.Leads u v → g.Reaches v .exit → ¬g.Reaches v u →
    order.idxOf v < order.idxOf u

theorem postorder_finishesFrom (hg : g.Consistent) (hs : g.contains start = true) :
    g.FinishesFrom start (g.reachableFrom start) (g.postorder start) := by
  have hmem : start ∈ g.nodes := mem_nodes.mpr hs
  have hnext : ∀ u, ∀ v ∈ g.successors u, v ∈ g.nodes := fun u v hv =>
    (mem_nodes_of_mem_successors hg hv).2
  obtain ⟨hnodup, hfound⟩ := reachableFrom_spec hg hs
  have hall := Walk.nodup_depthFirst (nodup_nodes g) hmem g.successors
  have hleft := Walk.depthFirst_left (nodup_nodes g) hmem g.successors
  have hpairwise := Walk.pairwise_depthFirst g.successors (nodup_nodes g) start
  have hreach : ∀ n, n ∈ (Walk.depthFirst g.successors g.nodes start).1 ↔ g.Reaches start n :=
    fun n => (Walk.mem_depthFirst_done (nodup_nodes g) hmem hnext).trans (reaches_successors hg)
  have hdone : ∀ n, n ∈ (Walk.depthFirst g.successors g.nodes start).1 ↔
      n ∈ g.reachableFrom start := fun n => (hreach n).trans (hfound n).symm
  have hlen : (Walk.depthFirst g.successors g.nodes start).1.length =
      (g.reachableFrom start).length :=
    ((List.perm_ext_iff_of_nodup (List.nodup_append.mp hall).1 hnodup).mpr hdone).length_eq
  refine ⟨hall, fun n => ?_, fun n => ?_, ?_, ?_, fun u v huv hu hvu => ?_⟩
  · exact (Walk.mem_depthFirst g.successors hmem n).trans mem_nodes
  · rw [postorder, List.take_left' hlen]
    exact hdone n
  · rw [postorder, List.take_left' hlen]
    exact Walk.getLast?_finish g.successors (g.nodes.erase start) [(start, g.successors start)]
  · rw [postorder, List.drop_left' hlen, hleft]
    exact List.filter_congr fun n _ => decide_eq_decide.mpr (not_congr (hdone n))
  · have hmemu := (hreach u).mpr hu
    have hmemv := (hreach v).mpr (hu.tail huv)
    rw [postorder, List.idxOf_append_of_mem hmemu, List.idxOf_append_of_mem hmemv]
    refine idxOf_lt_of_pairwise hpairwise hmemu hmemv ?_ fun h => hvu ?_
    · rintro rfl
      exact hvu .refl
    · exact (reaches_successors hg).mp (h ((mem_successors hg).mpr huv))

theorem backwardOrder_leadsBack (hg : g.Consistent) : g.LeadsBack g.backwardOrder := by
  have hmem : Node.exit ∈ g.nodes := mem_nodes.mpr rfl
  have hnext : ∀ v, ∀ u ∈ g.predecessors v, u ∈ g.nodes := fun v u =>
    mem_nodes_of_mem_predecessors hg
  have hall := Walk.nodup_depthFirst (nodup_nodes g) hmem g.predecessors
  have hpairwise := Walk.pairwise_depthFirst g.predecessors (nodup_nodes g) .exit
  have hreach : ∀ n, n ∈ (Walk.depthFirst g.predecessors g.nodes .exit).1.reverse ↔
      g.Reaches n .exit := by
    intro n
    rw [List.mem_reverse, Walk.mem_depthFirst_done (nodup_nodes g) hmem hnext]
    exact reaches_predecessors hg
  have hperm : g.backwardOrder.Perm ((Walk.depthFirst g.predecessors g.nodes .exit).1 ++
      (Walk.depthFirst g.predecessors g.nodes .exit).2) :=
    (List.reverse_perm _).append_right _
  refine ⟨hperm.nodup_iff.mpr hall, fun n => ?_, ?_, fun u v hv hu hnot => ?_,
    fun u v huv hv hvu => ?_⟩
  · rw [hperm.mem_iff, Walk.mem_depthFirst g.predecessors hmem]
    exact mem_nodes
  · have hlast := Walk.getLast?_finish g.predecessors (g.nodes.erase .exit)
      [(.exit, g.predecessors .exit)]
    rw [backwardOrder, List.head?_append, List.head?_reverse, Walk.depthFirst, hlast]
    rfl
  · have hmemu := (hreach u).mpr hu
    have hmemv : v ∉ (Walk.depthFirst g.predecessors g.nodes .exit).1.reverse := fun h =>
      hnot ((hreach v).mp h)
    rw [backwardOrder, List.idxOf_append_of_mem hmemu, List.idxOf_append_of_notMem hmemv]
    exact Nat.lt_add_right _ (List.idxOf_lt_length_iff.mpr hmemu)
  · have hmemv := (hreach v).mpr hv
    have hmemu := (hreach u).mpr (.head huv hv)
    rw [backwardOrder, List.idxOf_append_of_mem hmemu, List.idxOf_append_of_mem hmemv]
    refine idxOf_lt_of_pairwise (List.pairwise_reverse.mpr hpairwise) hmemu hmemv ?_
      fun h => hvu ?_
    · rintro rfl
      exact hvu .refl
    · exact (reaches_predecessors hg).mp (h ((mem_predecessors hg).mpr huv))

/-- What the walks over a graph find and in which orders they list its nodes, for every graph that
comes from a method by adding edges and every node to start from. -/
theorem traversal_orders (h : Grown m g) (hs : g.contains start = true) :
    ((g.reachableFrom start).Nodup ∧ ∀ n, n ∈ g.reachableFrom start ↔
      Relation.ReflTransGen g.Leads start n) ∧
    g.FinishesFrom start (g.reachableFrom start) (g.postorder start) ∧
    g.LeadsBack g.backwardOrder :=
  ⟨reachableFrom_spec h.consistent hs, postorder_finishesFrom h.consistent hs,
    backwardOrder_leadsBack h.consistent⟩

/-- A loop that is left for a return, and a statement behind it that nothing leads to. -/
def leaving : Method where
  name := "leave"
  file := "leave.ir"
  params := [⟨"n", "n", .prim .int⟩]
  body := [
    ⟨1, .branch (.bin .eq (.var ⟨"n", "n", .prim .int⟩) (.lit 0)) (some 2)⟩,
    ⟨2, .goto (some 0)⟩,
    ⟨3, .ret none⟩,
    ⟨4, .nop "nop"⟩]
  targets_lt := by decide

/-- The loop with an edge more, from the statement that nothing leads to into the loop. -/
theorem leaving_orders : ∃ g₀ g, Graph.build leaving = .ok g₀ ∧
    g₀.addEdge ⟨.stmt 3, .stmt 1, .normal, none⟩ = .ok g ∧ g.contains (.stmt 3) = true ∧
    g.FinishesFrom (.stmt 3) (g.reachableFrom (.stmt 3)) (g.postorder (.stmt 3)) ∧
    g.LeadsBack g.backwardOrder := by
  refine ⟨_, _, rfl, rfl, rfl, ?_⟩
  have hgrown := (Grown.build (m := leaving) rfl).addEdge ⟨.stmt 3, .stmt 1, .normal, none⟩ rfl
  exact (@traversal_orders leaving _ (.stmt 3) hgrown rfl).2

end Graph

end FlowLint
