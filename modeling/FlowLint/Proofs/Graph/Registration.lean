import FlowLint.Proofs.Graph.Flow

/-! # Calls for edges

Edges are called for one after the other, and some calls fail. A call checks its nodes and its edge
before it writes to the edge list and to two rows of adjacency, so a call that fails leaves no trace.
At every moment the rows are views of the edge list, which holds the edges of the calls that did not
fail.
-/
namespace FlowLint

namespace Graph
variable {m : Method} {g g' : Graph} {e : Edge}

/-- A computation on a graph that may fail. A failure keeps what has been written before it. -/
abbrev Update (α : Type) := ExceptT Error (StateM Graph) α

/-- What a computation gives on a graph, and what it leaves of it. -/
def Update.on {α : Type} (u : Update α) (g : Graph) : Except Error α × Graph :=
  StateT.run (ExceptT.run u) g

/-- A call for an edge, write by write. -/
def register (e : Edge) : Update Edge := do
  let g ← get
  g.checkNode e.source
  g.checkNode e.target
  let e ← e.check g.method
  modify fun g => { g with edges := g.edges ++ [e] }
  modify fun g => { g with outgoing := g.outgoing.set e.source (g.outEdges e.source ++ [e]) }
  modify fun g => { g with incoming := g.incoming.set e.target (g.inEdges e.target ++ [e]) }
  return e

/-- What calls for edges, one after the other, leave of a graph. -/
def after (g : Graph) (es : List Edge) : Graph := es.foldl (fun g e => ((register e).on g).2) g

/-- The edges that may be added: they join nodes of the graph, and one for a case has its constant. -/
def admits (g : Graph) (e : Edge) : Bool :=
  g.contains e.source && g.contains e.target && e.isWellFormed

theorem on_get_bind {β : Type} (k : Graph → Update β) (g : Graph) :
    Update.on (get >>= k) g = (k g).on g := rfl

theorem on_check_bind {α β : Type} (x : Except Error α) (k : α → Update β) (g : Graph) :
    Update.on (liftM x >>= k) g = match x with
      | .ok a => (k a).on g
      | .error err => (.error err, g) := by
  cases x <;> rfl

/-- Writing an edge piece by piece adds it, and all checks come before the first piece. -/
theorem register_eq (g : Graph) (e : Edge) : (register e).on g = match g.addEdge e with
    | .ok g' => (.ok e, g')
    | .error err => (.error err, g) := by
  rw [register, on_get_bind, on_check_bind, addEdge]
  cases hs : g.checkNode e.source with
  | error err => rfl
  | ok _ =>
    dsimp only
    rw [on_check_bind]
    cases ht : g.checkNode e.target with
    | error err => rfl
    | ok _ =>
      dsimp only
      rw [on_check_bind]
      cases he : e.check g.method with
      | error err => rfl
      | ok e' =>
        have heq : e' = e := by
          rw [Edge.check] at he
          split at he
          · exact (Except.ok.inj he).symm
          · cases he
        rw [heq]
        rfl

theorem register_of_admits (h : g.admits e = true) :
    g.addEdge e = .ok (g.push e) ∧ (register e).on g = (.ok e, g.push e) := by
  rw [admits, Bool.and_eq_true, Bool.and_eq_true] at h
  have hadd := addEdge_ok h.1.1 h.1.2 h.2
  refine ⟨hadd, ?_⟩
  rw [register_eq, hadd]

/-- A call that fails tells whether a node or the edge is to blame, and leaves the graph as it was. -/
theorem register_of_not_admits (h : g.admits e = false) :
    ∃ err, g.addEdge e = .error err ∧ (register e).on g = (.error err, g) ∧
      err.code? = some (if g.contains e.source && g.contains e.target then .malformedEdge
        else .unknownStatement) := by
  obtain ⟨err, hadd, hcode⟩ : ∃ err, g.addEdge e = .error err ∧
      err.code? = some (if g.contains e.source && g.contains e.target then .malformedEdge
        else .unknownStatement) := by
    rw [admits] at h
    rw [addEdge, checkNode, checkNode, Edge.check]
    cases hs : g.contains e.source with
    | false => exact ⟨_, rfl, rfl⟩
    | true =>
      cases ht : g.contains e.target with
      | false => exact ⟨_, rfl, rfl⟩
      | true =>
        have he : e.isWellFormed = false := by simpa [hs, ht] using h
        rw [he]
        exact ⟨_, rfl, rfl⟩
  refine ⟨err, hadd, ?_, hcode⟩
  rw [register_eq, hadd]

theorem Made.isWellFormed (h : Made m g) : ∀ e ∈ g.edges, e.isWellFormed = true := by
  induction h with
  | empty => exact nofun
  | addEdge _ e h ih =>
    obtain ⟨-, -, he, rfl⟩ := addEdge_eq h
    intro e' he'
    rcases List.mem_append.mp he' with he' | he'
    · exact ih e' he'
    · rw [List.mem_singleton.mp he']
      exact he

/-- Calls add the edges that the graph admits, in order. -/
theorem Made.after (h : Made m g) (es : List Edge) :
    Made m (g.after es) ∧ (g.after es).edges = g.edges ++ es.filter g.admits := by
  induction es generalizing g with
  | nil => exact ⟨h, (List.append_nil _).symm⟩
  | cons e rest ih =>
    rw [Graph.after, List.foldl_cons, ← Graph.after]
    cases hadmits : g.admits e with
    | true =>
      obtain ⟨hadd, hcall⟩ := register_of_admits hadmits
      obtain ⟨hmade, hedges⟩ := ih (h.addEdge e hadd)
      -- whether an edge is admitted depends on the nodes alone
      have hsame : (g.push e).admits = g.admits := rfl
      rw [hcall, List.filter_cons_of_pos hadmits]
      refine ⟨hmade, hedges.trans ?_⟩
      rw [hsame, Graph.push, List.append_assoc, List.singleton_append]
    | false =>
      obtain ⟨err, -, hcall, -⟩ := register_of_not_admits hadmits
      rw [hcall, List.filter_cons_of_neg (Bool.eq_false_iff.mp hadmits)]
      exact ih h

/-- A node comes after another one as often as that one comes before it. -/
theorem count_successors (hg : g.Consistent) (n k : Node) :
    (g.successors n).count k = (g.predecessors k).count n := by
  rw [successors, predecessors, hg.outEdges_eq, hg.inEdges_eq]
  simp only [List.count, List.countP_map, List.countP_filter]
  refine List.countP_congr fun e _ => ?_
  simp [and_comm]

/-- What holds of a graph after calls for edges on another one. The edge list has grown by the edges
of the calls that did not fail, and both adjacency tables show it. -/
structure Registered (g₀ : Graph) (es : List Edge) (g : Graph) : Prop where
  method_eq : g.method = g₀.method
  edges_eq : g.edges = g₀.edges ++ es.filter g₀.admits
  outEdges_eq : ∀ n, g.outEdges n = g.edges.filter (·.source = n)
  inEdges_eq : ∀ n, g.inEdges n = g.edges.filter (·.target = n)
  count_eq : ∀ n k, (g.successors n).count k = (g.predecessors k).count n
  joins : ∀ e ∈ g.edges, g.contains e.source = true ∧ g.contains e.target = true
  case_isSome : ∀ e ∈ g.edges, e.kind = .switchCase → e.case?.isSome = true
  accepted : ∀ e, g.admits e = true → (register e).on g = (.ok e, g.push e)
  /-- The next call fails if its edge is not admitted, and changes nothing then. -/
  refused : ∀ e, g.admits e = false → ∃ err, (register e).on g = (.error err, g) ∧
    err.code? = some (if g.contains e.source && g.contains e.target then .malformedEdge
      else .unknownStatement)

/-- Whatever edges are called for, on a graph without an edge or on the control flow of a method, the
graph is consistent after every call. -/
theorem after_registered {g₀ : Graph} (h₀ : g₀ = .empty m ∨ build m = .ok g₀) (es : List Edge) :
    Registered g₀ es (g₀.after es) := by
  have hmade₀ : Made m g₀ := by
    rcases h₀ with rfl | h₀
    · exact .empty
    · exact (build_blocks h₀).1
  obtain ⟨hmade, hedges⟩ := hmade₀.after es
  have hcons := hmade.consistent
  refine ⟨hmade.method_eq.trans hmade₀.method_eq.symm, hedges, hcons.outEdges_eq, hcons.inEdges_eq,
    count_successors hcons, fun e he => ?_, fun e he hkind => ?_, fun e h => ?_, fun e h => ?_⟩
  · exact ⟨hcons.contains_source e he, hcons.contains_target e he⟩
  · simpa [Edge.isWellFormed, hkind] using hmade.isWellFormed e he
  · exact (register_of_admits h).2
  · obtain ⟨err, -, hcall, hcode⟩ := register_of_not_admits h
    exact ⟨err, hcall, hcode⟩

/-- A statement that leads to itself. -/
def circling : Method where
  name := "circle"
  file := "circle.ir"
  params := []
  body := [⟨1, .goto (some 0)⟩]
  targets_lt := by decide

/-- Two of four calls fail: one names a stray, and one is for a case without a constant. -/
theorem circling_registered : ∃ g₀ es, build circling = .ok g₀ ∧ Registered g₀ es (g₀.after es) ∧
    ((g₀.after es).predecessors (.stmt 0)).count (.stmt 0) = 2 ∧ (g₀.after es).edges.length = 4 := by
  refine ⟨_, [⟨.stmt 0, .stmt 0, .switchCase, some 3⟩, ⟨.stmt 0, .stray 2 "nop", .normal, none⟩,
    ⟨.stmt 0, .exit, .switchCase, none⟩, ⟨.exit, .entry, .normal, none⟩], rfl, ?_⟩
  exact ⟨after_registered (m := circling) (.inr rfl) _, by decide, by decide⟩

end Graph

end FlowLint
