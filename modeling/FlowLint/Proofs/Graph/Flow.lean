import FlowLint.Proofs.Except
import FlowLint.Proofs.Graph.Adjacency

/-! # Edges of the control flow

What the graph of a method is made of: the edge from the entry and, statement by statement, the
edges that the actions ask for, each as often as it is asked for. Further edges may be added to such
a graph.
-/
namespace FlowLint

/-- The numbers of a numbered list ascend. -/
theorem pairwise_zipIdx {α : Type} (l : List α) (k : Nat) :
    (l.zipIdx k).Pairwise (·.2 < ·.2) := by
  rw [← List.pairwise_map (f := Prod.snd) (R := (· < ·)), List.zipIdx_map_snd]
  exact List.pairwise_lt_range'

/-- Every jump of the action has a target. A switch may do without a default. -/
def Action.Complete {τ : Type} : Action τ → Prop
  | .branch _ t | .goto t => t.isSome = true
  | .switch _ cases _ => ∀ c ∈ cases, c.2.isSome = true
  | _ => True

theorem Action.mem_targets_of_case {τ : Type} {x : Var} {cases : List (Int × Option τ)}
    {d : Option τ} {n : Int} {t : τ} (h : (n, some t) ∈ cases) :
    t ∈ (Action.switch x cases d).targets := by
  have harm : t ∈ cases.filterMap (·.2) := List.mem_filterMap.mpr ⟨_, h, rfl⟩
  exact List.mem_append_left _ harm

namespace Method
variable {m : Method} {i : Nat} {s : Stmt Nat} {es : List Edge} {e : Edge}

/-- The edges that an action at a position asks for. -/
inductive Flow (m : Method) (i : Nat) : Action Nat → Edge → Prop
  | taken (c : Expr) (t : Nat) : Flow m i (.branch c (some t)) ⟨.stmt i, .stmt t, .ifTrue, none⟩
  | notTaken (c : Expr) (t : Option Nat) :
    Flow m i (.branch c t) ⟨.stmt i, m.nodeAt (i + 1), .ifFalse, none⟩
  | jump (t : Nat) : Flow m i (.goto (some t)) ⟨.stmt i, .stmt t, .normal, none⟩
  | case (x : Var) {cases : List (Int × Option Nat)} (d : Option Nat) {n : Int} {t : Nat}
    (h : (n, some t) ∈ cases) :
    Flow m i (.switch x cases d) ⟨.stmt i, .stmt t, .switchCase, some n⟩
  | default (x : Var) (cases : List (Int × Option Nat)) (t : Nat) :
    Flow m i (.switch x cases (some t)) ⟨.stmt i, .stmt t, .switchDefault, none⟩
  | leave (v : Option Expr) : Flow m i (.ret v) ⟨.stmt i, .exit, .normal, none⟩
  | nop (label : String) : Flow m i (.nop label) ⟨.stmt i, m.nodeAt (i + 1), .normal, none⟩
  | assign (p : LValue) (v : Expr) :
    Flow m i (.assign p v) ⟨.stmt i, m.nodeAt (i + 1), .normal, none⟩
  | invoke (p : Option LValue) (v : Expr) :
    Flow m i (.invoke p v) ⟨.stmt i, m.nodeAt (i + 1), .normal, none⟩

/-- The edge of a case. -/
inductive Arm (i : Nat) : Int × Option Nat → Edge → Prop
  | mk (n : Int) (t : Nat) : Arm i (n, some t) ⟨.stmt i, .stmt t, .switchCase, some n⟩

/-- All edges of an action at a position, in order and with repeats: a switch has an edge for every
case, and one for its default if it has that. -/
inductive Leaves (m : Method) (i : Nat) : Action Nat → List Edge → Prop
  | branch (c : Expr) (t : Nat) : Leaves m i (.branch c (some t))
    [⟨.stmt i, .stmt t, .ifTrue, none⟩, ⟨.stmt i, m.nodeAt (i + 1), .ifFalse, none⟩]
  | goto (t : Nat) : Leaves m i (.goto (some t)) [⟨.stmt i, .stmt t, .normal, none⟩]
  | switch (x : Var) {cases : List (Int × Option Nat)} {arms : List Edge} (d : Option Nat)
    (h : List.Forall₂ (Arm i) cases arms) : Leaves m i (.switch x cases d)
    (arms ++ d.toList.map fun t => ⟨.stmt i, .stmt t, .switchDefault, none⟩)
  | ret (v : Option Expr) : Leaves m i (.ret v) [⟨.stmt i, .exit, .normal, none⟩]
  | nop (label : String) :
    Leaves m i (.nop label) [⟨.stmt i, m.nodeAt (i + 1), .normal, none⟩]
  | assign (p : LValue) (v : Expr) :
    Leaves m i (.assign p v) [⟨.stmt i, m.nodeAt (i + 1), .normal, none⟩]
  | invoke (p : Option LValue) (v : Expr) :
    Leaves m i (.invoke p v) [⟨.stmt i, m.nodeAt (i + 1), .normal, none⟩]

theorem hasNode_nodeAt (m : Method) (i : Nat) : m.hasNode (m.nodeAt i) = true := by
  rw [nodeAt]
  split
  · next h => exact decide_eq_true h
  · rfl

theorem nodeAt_of_lt (h : i < m.size) : m.nodeAt i = .stmt i := if_pos h

theorem nodeAt_size (m : Method) : m.nodeAt m.size = .exit := if_neg (Nat.lt_irrefl _)

theorem nodeAt_ne_entry (m : Method) (i : Nat) : m.nodeAt i ≠ .entry := by
  rw [nodeAt]
  split <;> exact nofun

theorem lt_size_of_body (h : m.body[i]? = some s) : i < m.size :=
  (List.getElem?_eq_some_iff.mp h).1

theorem stmtAt_of_body (h : m.body[i]? = some s) : m.stmtAt (.stmt i) = s := by
  rw [stmtAt, h]
  rfl

theorem Flow.source {a : Action Nat} (h : Flow m i a e) : e.source = .stmt i := by
  cases h <;> rfl

theorem Flow.hasNode_target {a : Action Nat} (ha : ∀ t ∈ a.targets, t < m.size)
    (h : Flow m i a e) : m.hasNode e.target = true := by
  cases h with
  | taken c t | jump t | default x cases t => exact decide_eq_true (ha t (by simp [Action.targets]))
  | case x d hc =>
    have ht := ha _ (Action.mem_targets_of_case hc)
    exact decide_eq_true ht
  | leave v => rfl
  | nop | assign | invoke | notTaken => exact hasNode_nodeAt m (i + 1)

theorem Flow.isWellFormed {a : Action Nat} (h : Flow m i a e) : e.isWellFormed = true := by
  cases h <;> rfl

theorem Flow.target_ne_entry {a : Action Nat} (h : Flow m i a e) : e.target ≠ .entry := by
  cases h with
  | taken | jump | case | default | leave => exact nofun
  | nop | assign | invoke | notTaken => exact m.nodeAt_ne_entry (i + 1)

theorem mem_arms {cases : List (Int × Option Nat)} {arms : List Edge}
    (h : List.Forall₂ (Arm i) cases arms) : (∀ c ∈ cases, c.2.isSome = true) ∧ ∀ e, e ∈ arms ↔
      ∃ n t, (n, some t) ∈ cases ∧ e = ⟨.stmt i, .stmt t, .switchCase, some n⟩ := by
  obtain ⟨hcases, hedges⟩ := mem_of_forall₂ h
  refine ⟨fun c hc => ?_, fun e => ⟨fun he => ?_, ?_⟩⟩
  · obtain ⟨e, -, harm⟩ := hcases c hc
    cases harm
    rfl
  · obtain ⟨c, hc, harm⟩ := hedges e he
    cases harm with
    | mk n t => exact ⟨n, t, hc, rfl⟩
  · rintro ⟨n, t, hc, rfl⟩
    obtain ⟨e, he, harm⟩ := hcases _ hc
    cases harm
    exact he

/-- An action with edges has all its targets, and its edges are those that it asks for. -/
theorem Leaves.spec {a : Action Nat} (h : m.Leaves i a es) :
    a.Complete ∧ ∀ e, e ∈ es ↔ Flow m i a e := by
  cases h with
  | branch c t =>
    refine ⟨rfl, fun e => ?_⟩
    rw [List.mem_pair]
    constructor
    · rintro (rfl | rfl)
      · exact .taken c t
      · exact .notTaken c (some t)
    · intro he
      cases he with
      | taken => exact .inl rfl
      | notTaken => exact .inr rfl
  | switch x d harms =>
    obtain ⟨hcomplete, hmem⟩ := mem_arms harms
    refine ⟨hcomplete, fun e => ?_⟩
    rw [List.mem_append, hmem]
    constructor
    · rintro (⟨n, t, hc, rfl⟩ | he)
      · exact .case x d hc
      · obtain ⟨t, ht, rfl⟩ := List.mem_map.mp he
        rw [Option.mem_toList.mp ht]
        exact .default x _ t
    · intro he
      cases he with
      | case x d hc => exact .inl ⟨_, _, hc, rfl⟩
      | default x cases t => exact .inr (by simp)
  | goto | ret | nop | assign | invoke =>
    refine ⟨by trivial, fun e => ?_⟩
    rw [List.mem_singleton]
    constructor
    · rintro rfl
      constructor
    · intro he
      cases he
      rfl

theorem edgesFrom_leaves (h : m.edgesFrom i s = .ok es) : m.Leaves i s.action es := by
  obtain ⟨line, action⟩ := s
  cases action with
  | branch c t | goto t =>
    cases t with
    | none => cases h
    | some t =>
      cases h
      constructor
  | switch x cases d =>
    obtain ⟨arms, harms, h⟩ := exists_of_bind h
    cases h
    refine .switch x d ((forall₂_of_mapM harms).imp ?_)
    rintro ⟨n, _ | t⟩ e he
    · cases he
    · cases he
      exact .mk n t
  | nop | assign | invoke | ret =>
    cases h
    constructor

theorem edgesFrom_ok (i : Nat) (h : s.action.Complete) : ∃ es, m.edgesFrom i s = .ok es := by
  obtain ⟨line, action⟩ := s
  cases action with
  | branch c t | goto t =>
    obtain ⟨t, rfl⟩ := Option.isSome_iff_exists.mp h
    exact ⟨_, rfl⟩
  | switch x cases d =>
    refine exists_bind (exists_mapM fun c hc => ?_) fun arms => ⟨_, rfl⟩
    obtain ⟨n, t⟩ := c
    obtain ⟨t, rfl⟩ := Option.isSome_iff_exists.mp (h _ hc)
    exact ⟨_, rfl⟩
  | nop | assign | invoke | ret => exact ⟨_, rfl⟩

theorem required_error {target : Option Nat} {missing err : Error}
    (h : required target missing = .error err) : err = missing := by
  cases target with
  | none =>
    cases h
    rfl
  | some t => cases h

theorem edgesFrom_error {err : Error} (h : m.edgesFrom i s = .error err) :
    err.code? = some .danglingTarget := by
  obtain ⟨line, action⟩ := s
  cases action with
  | branch c t | goto t =>
    rcases error_of_bind h with h | ⟨n, -, h⟩
    · rw [required_error h]
      rfl
    · cases h
  | switch x cases d =>
    rcases error_of_bind h with h | ⟨arms, -, h⟩
    · obtain ⟨c, -, hc⟩ := error_of_mapM h
      rcases error_of_bind hc with hc | ⟨n, -, hc⟩
      · rw [required_error hc]
        rfl
      · cases hc
    · cases h
  | nop | assign | invoke | ret => cases h

theorem edgesOf_ok {ss : List (Stmt Nat)} (i : Nat) (h : ∀ s ∈ ss, s.action.Complete) :
    ∃ es, m.edgesOf i ss = .ok es := by
  induction ss generalizing i with
  | nil => exact ⟨[], rfl⟩
  | cons s rest ih =>
    refine exists_bind (edgesFrom_ok i (h s List.mem_cons_self)) fun here => ?_
    exact exists_bind (ih (i + 1) fun s hs => h s (List.mem_cons_of_mem _ hs)) fun _ => ⟨_, rfl⟩

theorem edgesOf_error {ss : List (Stmt Nat)} {err : Error} (h : m.edgesOf i ss = .error err) :
    err.code? = some .danglingTarget := by
  induction ss generalizing i with
  | nil => cases h
  | cons s rest ih =>
    rcases error_of_bind h with h | ⟨here, -, h⟩
    · exact edgesFrom_error h
    rcases error_of_bind h with h | ⟨there, -, h⟩
    · exact ih h
    · cases h

/-- The edges of statements are those of one statement after the other. -/
theorem edgesOf_blocks {ss : List (Stmt Nat)} (h : m.edgesOf i ss = .ok es) :
    ∃ blocks, List.Forall₂ (fun p es => m.Leaves p.2 p.1.action es) (ss.zipIdx i) blocks ∧
      es = blocks.flatten := by
  induction ss generalizing i es with
  | nil =>
    cases h
    exact ⟨[], .nil, rfl⟩
  | cons s rest ih =>
    obtain ⟨here, hhere, h⟩ := exists_of_bind h
    obtain ⟨there, hthere, h⟩ := exists_of_bind h
    cases h
    obtain ⟨blocks, hblocks, rfl⟩ := ih hthere
    exact ⟨here :: blocks, .cons (edgesFrom_leaves hhere) hblocks, rfl⟩

theorem Leaves.source {a : Action Nat} (h : m.Leaves i a es) : ∀ e ∈ es, e.source = .stmt i :=
  fun e he => ((h.spec.2 e).mp he).source

theorem mem_blocks {blocks : List (List Edge)}
    (h : List.Forall₂ (fun p es => m.Leaves p.2 p.1.action es) m.body.zipIdx blocks) :
    (∀ s ∈ m.body, s.action.Complete) ∧
      ∀ e, e ∈ blocks.flatten ↔ ∃ i s, m.body[i]? = some s ∧ Flow m i s.action e := by
  obtain ⟨hbody, hblocks⟩ := mem_of_forall₂ h
  refine ⟨fun s hs => ?_, fun e => ?_⟩
  · obtain ⟨i, hi⟩ := List.mem_iff_getElem?.mp hs
    obtain ⟨es, -, hes⟩ := hbody (s, i) (List.mk_mem_zipIdx_iff_getElem?.mpr hi)
    exact hes.spec.1
  rw [List.mem_flatten]
  constructor
  · rintro ⟨es, hes, he⟩
    obtain ⟨⟨s, i⟩, hs, hleaves⟩ := hblocks es hes
    exact ⟨i, s, List.mk_mem_zipIdx_iff_getElem?.mp hs, (hleaves.spec.2 e).mp he⟩
  · rintro ⟨i, s, hs, he⟩
    obtain ⟨es, hes, hleaves⟩ := hbody (s, i) (List.mk_mem_zipIdx_iff_getElem?.mpr hs)
    exact ⟨es, hes, (hleaves.spec.2 e).mpr he⟩

/-- The edges that leave a position are those of its own block. -/
theorem leaves_of_blocks {ss : List (Stmt Nat)} {blocks : List (List Edge)}
    (h : List.Forall₂ (fun p es => m.Leaves p.2 p.1.action es) (ss.zipIdx i) blocks) {j : Nat}
    (hs : ss[j]? = some s) :
    m.Leaves (i + j) s.action (blocks.flatten.filter (·.source = .stmt (i + j))) := by
  induction ss generalizing i j blocks with
  | nil => cases hs
  | cons s' rest ih =>
    obtain _ | ⟨hhere, hrest⟩ := h
    rw [List.flatten_cons, List.filter_append]
    cases j with
    | zero =>
      cases hs
      -- the blocks behind the first one are of greater positions
      rw [List.filter_eq_self.mpr, List.filter_eq_nil_iff.mpr, List.append_nil]
      · exact hhere
      · intro e he hsource
        obtain ⟨es, hes, he⟩ := List.mem_flatten.mp he
        obtain ⟨⟨s', k⟩, hk, hleaves⟩ := (mem_of_forall₂ hrest).2 es hes
        have hle := (List.mem_zipIdx hk).1
        rw [hleaves.source e he] at hsource
        cases of_decide_eq_true hsource
        exact absurd hle (Nat.not_succ_le_self _)
      · exact fun e he => decide_eq_true (hhere.source e he)
    | succ j =>
      rw [List.filter_eq_nil_iff.mpr, List.nil_append]
      · have htail := ih hrest hs
        rwa [Nat.add_right_comm] at htail
      · intro e he hsource
        rw [hhere.source e he] at hsource
        have heq := Node.stmt.inj (of_decide_eq_true hsource)
        exact absurd heq (by omega)

end Method

namespace Graph
variable {m : Method} {g : Graph}

theorem edges_foldl_push (es : List Edge) (g : Graph) :
    (es.foldl Graph.push g).edges = g.edges ++ es := by
  induction es generalizing g with
  | nil => exact (List.append_nil _).symm
  | cons e rest ih => exact (ih (g.push e)).trans (List.append_assoc ..)

/-- The graph of a method is made by adding the edge from the entry and then those of the
statements. -/
theorem build_blocks (h : build m = .ok g) : Made m g ∧ ∃ blocks,
    List.Forall₂ (fun p es => m.Leaves p.2 p.1.action es) m.body.zipIdx blocks ∧
      g.edges = ⟨.entry, m.nodeAt 0, .normal, none⟩ :: blocks.flatten := by
  obtain ⟨es, hes, h⟩ := exists_of_bind h
  cases h
  obtain ⟨tail, htail, hes⟩ := exists_of_bind hes
  cases hes
  obtain ⟨blocks, hblocks, rfl⟩ := Method.edgesOf_blocks htail
  refine ⟨Made.empty.foldl_push fun e he => ?_, blocks, hblocks, edges_foldl_push _ _⟩
  rcases List.mem_cons.mp he with rfl | he
  · exact ⟨rfl, Method.hasNode_nodeAt m 0, rfl⟩
  · obtain ⟨i, s, hs, hf⟩ := ((Method.mem_blocks hblocks).2 e).mp he
    have hsource : m.hasNode e.source = true := by
      rw [hf.source]
      exact decide_eq_true (Method.lt_size_of_body hs)
    exact ⟨hsource, hf.hasNode_target (m.targets_lt s (List.mem_of_getElem? hs)), hf.isWellFormed⟩

/-- The graph of a method exists only when no jump lacks its target. It is consistent, and its
edges are those of the statements behind the edge from the entry. -/
theorem build_spec (h : build m = .ok g) :
    g.method = m ∧ g.Consistent ∧ (∀ s ∈ m.body, s.action.Complete) ∧
      ∀ e, e ∈ g.edges ↔ e = ⟨.entry, m.nodeAt 0, .normal, none⟩ ∨
        ∃ i s, m.body[i]? = some s ∧ m.Flow i s.action e := by
  obtain ⟨hmade, blocks, hblocks, hedges⟩ := build_blocks h
  obtain ⟨hcomplete, hmem⟩ := Method.mem_blocks hblocks
  refine ⟨hmade.method_eq, hmade.consistent, hcomplete, fun e => ?_⟩
  rw [hedges, ← hmem e]
  exact List.mem_cons

/-- A graph that is the control flow of a method: its edges are the one from the entry and then
those of the statements, none more often than an action asks for it. -/
structure IsFlowOf (g : Graph) (m : Method) : Prop where
  method_eq : g.method = m
  edges_eq : ∃ blocks,
    List.Forall₂ (fun p es => m.Leaves p.2 p.1.action es) m.body.zipIdx blocks ∧
      g.edges = ⟨.entry, m.nodeAt 0, .normal, none⟩ :: blocks.flatten
  outEdges_stmt : ∀ i s, m.body[i]? = some s → m.Leaves i s.action (g.outEdges (.stmt i))
  inEdges_entry : g.inEdges .entry = []
  outEdges_exit : g.outEdges .exit = []

theorem build_isFlowOf (h : build m = .ok g) : g.IsFlowOf m := by
  obtain ⟨hmade, blocks, hblocks, hedges⟩ := build_blocks h
  have hcons := hmade.consistent
  have hmem := (Method.mem_blocks hblocks).2
  refine ⟨hmade.method_eq, ⟨blocks, hblocks, hedges⟩, fun i s hs => ?_, ?_, ?_⟩
  · have hleaves := Method.leaves_of_blocks hblocks hs
    rw [Nat.zero_add] at hleaves
    rw [hcons.outEdges_eq, hedges, List.filter_cons_of_neg (by simp)]
    exact hleaves
  · rw [hcons.inEdges_eq, List.filter_eq_nil_iff, hedges]
    intro e he hentry
    have hentry : e.target = .entry := of_decide_eq_true hentry
    rcases List.mem_cons.mp he with rfl | he
    · exact m.nodeAt_ne_entry 0 hentry
    · obtain ⟨i, s, -, hflow⟩ := (hmem e).mp he
      exact hflow.target_ne_entry hentry
  · rw [hcons.outEdges_eq, List.filter_eq_nil_iff, hedges]
    intro e he hexit
    have hexit : e.source = .exit := of_decide_eq_true hexit
    rcases List.mem_cons.mp he with rfl | he
    · cases hexit
    · obtain ⟨i, s, -, hflow⟩ := (hmem e).mp he
      rw [hflow.source] at hexit
      cases hexit

theorem build_ok (h : ∀ s ∈ m.body, s.action.Complete) : ∃ g, build m = .ok g :=
  exists_bind (exists_bind (Method.edgesOf_ok 0 h) fun _ => ⟨_, rfl⟩) fun _ => ⟨_, rfl⟩

/-- The graph of a method fails to exist for want of a target only. -/
theorem build_error {e : Error} (h : build m = .error e) : e.code? = some .danglingTarget := by
  rcases error_of_bind h with h | ⟨es, -, h⟩
  · rcases error_of_bind h with h | ⟨tail, -, h⟩
    · exact Method.edgesOf_error h
    · cases h
  · cases h

theorem exists_build_iff : (∃ g, build m = .ok g) ↔ ∀ s ∈ m.body, s.action.Complete :=
  ⟨fun ⟨_, h⟩ => (build_spec h).2.2.1, build_ok⟩

theorem build_error_iff : (∃ e, build m = .error e ∧ e.code? = some .danglingTarget) ↔
    ∃ s ∈ m.body, ¬s.action.Complete := by
  constructor
  · rintro ⟨e, he, -⟩
    by_contra! hcomplete
    obtain ⟨g, hg⟩ := build_ok hcomplete
    rw [hg] at he
    cases he
  · rintro ⟨s, hs, hlack⟩
    cases h : build m with
    | error e => exact ⟨e, rfl, build_error h⟩
    | ok g => exact absurd ((build_spec h).2.2.1 s hs) hlack

/-- The graphs of a method: that of its control flow, and those that come from adding edges. -/
inductive Grown (m : Method) : Graph → Prop
  | build {g : Graph} (h : Graph.build m = .ok g) : Grown m g
  | addEdge {g g' : Graph} (hg : Grown m g) (e : Edge) (h : g.addEdge e = .ok g') : Grown m g'

theorem Grown.made (h : Grown m g) : Made m g := by
  induction h with
  | build h => exact (build_blocks h).1
  | addEdge _ e h ih => exact ih.addEdge e h

theorem Grown.method_eq (h : Grown m g) : g.method = m := h.made.method_eq

theorem Grown.consistent (h : Grown m g) : g.Consistent := h.made.consistent

end Graph

end FlowLint
