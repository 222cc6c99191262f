import FlowLint.Graph.Flow

/-! # Edge lists and adjacency

In a consistent graph the edges out of a node and into it are those of the edge list, in its order.
The graph of a control flow is consistent and stays so when edges are added.
-/
namespace FlowLint

namespace NodeMap
variable {α : Type} {f : NodeMap α} {m : Method} {n k : Node}

theorem size_set (f : NodeMap α) (n : Node) (a : α) : (f.set n a).body.size = f.body.size := by
  cases n <;> simp [set]

theorem isSome_get? (hf : f.body.size = m.size) (n : Node) : (f.get? n).isSome = m.hasNode n := by
  cases n with
  | entry | exit | stray => rfl
  | stmt i =>
    rw [get?, Method.hasNode, ← hf]
    by_cases h : i < f.body.size <;> simp [h]

theorem getD_of_not_hasNode (hf : f.body.size = m.size) (hn : m.hasNode n = false) (d : α) :
    f.getD n d = d := by
  have h := isSome_get? hf n
  rw [hn, Option.isSome_eq_false_iff, Option.isNone_iff_eq_none] at h
  rw [getD, h]
  rfl

theorem getD_set (hf : f.body.size = m.size) (hn : m.hasNode n = true) (a d : α) :
    (f.set n a).getD k d = if n = k then a else f.getD k d := by
  rw [getD, get?_set]
  by_cases h : n = k
  · subst h
    rw [← isSome_get? hf, Option.isSome_iff_exists] at hn
    obtain ⟨b, hb⟩ := hn
    simp [hb]
  · rw [if_neg h, if_neg h]
    rfl

theorem forall_getD_set {P : α → Prop} {a d : α} (ha : P a) (hf : ∀ k, P (f.getD k d))
    (n k : Node) : P ((f.set n a).getD k d) := by
  rw [getD, get?_set]
  split
  · have hk := hf k
    rw [getD] at hk
    cases hget : f.get? k with
    | none => rwa [hget] at hk
    | some b => exact ha
  · exact hf k

theorem getD_replicate (size : Nat) (a : α) (n : Node) : (replicate size a).getD n a = a := by
  cases n with
  | entry | exit | stray => rfl
  | stmt i =>
    rw [getD, get?, replicate]
    by_cases h : i < size <;> simp [h]

end NodeMap

theorem Method.mem_nodes {m : Method} {n : Node} : n ∈ m.nodes ↔ m.hasNode n = true := by
  cases n <;> simp [nodes, hasNode]

namespace Graph
variable {g : Graph} {e : Edge}

theorem mem_nodes {n : Node} : n ∈ g.nodes ↔ g.contains n = true := Method.mem_nodes

/-- Adjacency is a view of the edge list, whose edges join nodes of the graph. -/
structure Consistent (g : Graph) : Prop where
  outgoing_size : g.outgoing.body.size = g.method.size
  incoming_size : g.incoming.body.size = g.method.size
  outEdges_eq : ∀ n, g.outEdges n = g.edges.filter (·.source = n)
  inEdges_eq : ∀ n, g.inEdges n = g.edges.filter (·.target = n)
  contains_source : ∀ e ∈ g.edges, g.contains e.source = true
  contains_target : ∀ e ∈ g.edges, g.contains e.target = true

theorem consistent_empty (m : Method) : (empty m).Consistent where
  outgoing_size := Array.size_replicate
  incoming_size := Array.size_replicate
  outEdges_eq n := NodeMap.getD_replicate m.size [] n
  inEdges_eq n := NodeMap.getD_replicate m.size [] n
  contains_source := nofun
  contains_target := nofun

theorem Consistent.push (hg : g.Consistent) (hs : g.contains e.source = true)
    (ht : g.contains e.target = true) : (g.push e).Consistent where
  outgoing_size := (NodeMap.size_set ..).trans hg.outgoing_size
  incoming_size := (NodeMap.size_set ..).trans hg.incoming_size
  outEdges_eq n := by
    have h : (g.push e).outEdges n = if e.source = n then g.outEdges e.source ++ [e]
        else g.outEdges n := NodeMap.getD_set hg.outgoing_size hs _ _
    rw [h, Graph.push, List.filter_append, ← hg.outEdges_eq n]
    by_cases hn : e.source = n <;> simp [hn]
  inEdges_eq n := by
    have h : (g.push e).inEdges n = if e.target = n then g.inEdges e.target ++ [e]
        else g.inEdges n := NodeMap.getD_set hg.incoming_size ht _ _
    rw [h, Graph.push, List.filter_append, ← hg.inEdges_eq n]
    by_cases hn : e.target = n <;> simp [hn]
  contains_source e' he := by
    rcases List.mem_append.mp he with he | he
    · exact hg.contains_source e' he
    · rw [List.mem_singleton.mp he]
      exact hs
  contains_target e' he := by
    rcases List.mem_append.mp he with he | he
    · exact hg.contains_target e' he
    · rw [List.mem_singleton.mp he]
      exact ht

theorem mem_outEdges (hg : g.Consistent) {n : Node} :
    e ∈ g.outEdges n ↔ e ∈ g.edges ∧ e.source = n := by
  rw [hg.outEdges_eq, List.mem_filter, decide_eq_true_iff]

/-- An edge leads from a node to another one. -/
def Leads (g : Graph) (n k : Node) : Prop := ∃ e ∈ g.edges, e.source = n ∧ e.target = k

theorem mem_successors (hg : g.Consistent) {n k : Node} :
    k ∈ g.successors n ↔ ∃ e ∈ g.edges, e.source = n ∧ e.target = k := by
  simp [successors, hg.outEdges_eq, and_assoc]

theorem mem_predecessors (hg : g.Consistent) {n k : Node} :
    n ∈ g.predecessors k ↔ ∃ e ∈ g.edges, e.source = n ∧ e.target = k := by
  simp [predecessors, hg.inEdges_eq, and_assoc, and_comm]

theorem mem_predecessors_iff (hg : g.Consistent) {n k : Node} :
    n ∈ g.predecessors k ↔ k ∈ g.successors n := by
  rw [mem_predecessors hg, mem_successors hg]

theorem contains_of_mem_successors (hg : g.Consistent) {n k : Node} (h : k ∈ g.successors n) :
    g.contains n = true ∧ g.contains k = true := by
  obtain ⟨e, he, rfl, rfl⟩ := (mem_successors hg).mp h
  exact ⟨hg.contains_source e he, hg.contains_target e he⟩

/-- An edge that is added is well formed, joins nodes of the graph and is put last. -/
theorem addEdge_eq {g' : Graph} (h : g.addEdge e = .ok g') :
    g.contains e.source = true ∧ g.contains e.target = true ∧ e.isWellFormed = true ∧
      g' = g.push e := by
  rw [addEdge, checkNode, checkNode, Edge.check] at h
  by_cases hs : g.contains e.source = true
  · by_cases ht : g.contains e.target = true
    · by_cases he : e.isWellFormed = true
      · simp only [hs, ht, he, ↓reduceIte] at h
        cases h
        exact ⟨hs, ht, he, rfl⟩
      · simp only [hs, ht, he, ↓reduceIte] at h
        cases h
    · simp only [hs, ht, ↓reduceIte] at h
      cases h
  · simp only [hs] at h
    cases h

theorem addEdge_ok (hs : g.contains e.source = true) (ht : g.contains e.target = true)
    (he : e.isWellFormed = true) : g.addEdge e = .ok (g.push e) := by
  rw [addEdge, checkNode, checkNode, Edge.check, if_pos hs, if_pos ht, if_pos he]
  rfl

/-- The graphs on the nodes of a method: the one without an edge, and those that come from adding
edges. -/
inductive Made (m : Method) : Graph → Prop
  | empty : Made m (.empty m)
  | addEdge {g g' : Graph} (hg : Made m g) (e : Edge) (h : g.addEdge e = .ok g') : Made m g'

theorem Made.method_eq {m : Method} (h : Made m g) : g.method = m := by
  induction h with
  | empty => rfl
  | addEdge _ e h ih =>
    obtain ⟨-, -, -, rfl⟩ := addEdge_eq h
    exact ih

theorem Made.consistent {m : Method} (h : Made m g) : g.Consistent := by
  induction h with
  | empty => exact consistent_empty m
  | addEdge _ e h ih =>
    obtain ⟨hs, ht, -, rfl⟩ := addEdge_eq h
    exact ih.push hs ht

theorem Made.foldl_push {m : Method} {es : List Edge} (h : Made m g)
    (hes : ∀ e ∈ es, m.hasNode e.source = true ∧ m.hasNode e.target = true ∧
      e.isWellFormed = true) : Made m (es.foldl Graph.push g) := by
  induction es generalizing g with
  | nil => exact h
  | cons e rest ih =>
    obtain ⟨hs, ht, he⟩ := hes e List.mem_cons_self
    rw [← h.method_eq] at hs ht
    exact ih (h.addEdge e (addEdge_ok hs ht he)) fun e' he' => hes e' (List.mem_cons_of_mem _ he')

end Graph

end FlowLint
