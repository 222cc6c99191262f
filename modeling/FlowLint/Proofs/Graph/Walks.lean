import FlowLint.Graph.Traversal
import FlowLint.Proofs.Graph.Adjacency

/-! # What walks visit

A depth-first walk finishes or leaves over every node exactly as given, so every order of the nodes
that comes from one has all of them. A closure contains its start and all that its members lead to.
-/
namespace FlowLint

namespace Walk
variable {α : Type} [DecidableEq α]

/-- A walk loses no node and makes none up. -/
theorem perm_finish (next : α → List α) (unvisited : List α) (stack : List (α × List α)) :
    ((finish next unvisited stack).1 ++ (finish next unvisited stack).2).Perm
      (unvisited ++ stack.map (·.1)) := by
  fun_induction finish next unvisited stack with
  | case1 unvisited => simp
  | case2 unvisited a stack done left heq ih =>
    rw [heq] at ih
    exact (ih.cons a).trans List.perm_middle.symm
  | case3 unvisited a b bs stack hb ih =>
    refine ih.trans (List.perm_middle.trans ?_)
    exact (List.perm_cons_erase hb).symm.append_right _
  | case4 unvisited a b bs stack hb ih => exact ih

theorem perm_depthFirst (next : α → List α) {all : List α} {start : α} (hs : start ∈ all) :
    ((depthFirst next all start).1 ++ (depthFirst next all start).2).Perm all := by
  refine (perm_finish next (all.erase start) [(start, next start)]).trans ?_
  exact (List.perm_append_singleton start _).trans (List.perm_cons_erase hs).symm

theorem mem_depthFirst (next : α → List α) {all : List α} {start : α} (hs : start ∈ all) (x : α) :
    x ∈ (depthFirst next all start).1 ++ (depthFirst next all start).2 ↔ x ∈ all :=
  (perm_depthFirst next hs).mem_iff

/-- A closure under steps that do not fail exists, contains what it starts from and is closed, as
long as the steps stay among the nodes that are found or not found yet. -/
theorem closure_spec {ε : Type} {next : α → Except ε (List α)} {succ : α → List α}
    (hnext : ∀ a, next a = .ok (succ a)) {unfound pending found : List α}
    (hstay : ∀ a, ∀ b ∈ succ a, b ∈ unfound ∨ b ∈ found)
    (hpending : ∀ a ∈ found, a ∉ pending → ∀ b ∈ succ a, b ∈ found) :
    ∃ closed, closure next unfound pending found = .ok closed ∧ (∀ a ∈ found, a ∈ closed) ∧
      ∀ a ∈ closed, ∀ b ∈ succ a, b ∈ closed := by
  fun_induction closure next unfound pending found with
  | case1 unfound found =>
    exact ⟨found, rfl, fun _ => id, fun a ha => hpending a ha List.not_mem_nil⟩
  | case2 unfound found a pending e he =>
    rw [hnext] at he
    cases he
  | case3 unfound found a pending bs hbs ih =>
    rw [hnext] at hbs
    cases hbs
    have hamong : ∀ b ∈ succ a, b ∈ found ++ among (succ a) unfound := by
      intro b hb
      rcases hstay a b hb with h | h
      · exact List.mem_append_right _ (List.mem_filter.mpr ⟨h, decide_eq_true hb⟩)
      · exact List.mem_append_left _ h
    have hstay' : ∀ c, ∀ b ∈ succ c,
        b ∈ others (succ a) unfound ∨ b ∈ found ++ among (succ a) unfound := by
      intro c b hb
      by_cases hm : b ∈ succ a
      · exact .inr (hamong b hm)
      · exact (hstay c b hb).imp (fun h => List.mem_filter.mpr ⟨h, decide_eq_true hm⟩)
          (List.mem_append_left _)
    obtain ⟨closed, hclosed, hfound, hstep⟩ := ih hstay' (by
      intro c hc hnot b hb
      rw [List.mem_append, not_or] at hnot
      have hc := (List.mem_append.mp hc).resolve_right hnot.2
      by_cases hca : c = a
      · exact hamong b (hca ▸ hb)
      · have hnot : c ∉ a :: pending := by
          rw [List.mem_cons, not_or]
          exact ⟨hca, hnot.1⟩
        exact List.mem_append_left _ (hpending c hc hnot b hb))
    exact ⟨closed, hclosed, fun c hc => hfound c (List.mem_append_left _ hc), hstep⟩

theorem closure_ok {ε : Type} {next : α → Except ε (List α)} (hnext : ∀ a, ∃ bs, next a = .ok bs)
    (unfound pending found : List α) :
    ∃ closed, closure next unfound pending found = .ok closed := by
  fun_induction closure next unfound pending found with
  | case1 unfound found => exact ⟨found, rfl⟩
  | case2 unfound found a pending e he =>
    obtain ⟨bs, hbs⟩ := hnext a
    rw [hbs] at he
    cases he
  | case3 unfound found a pending bs hbs ih => exact ih

/-- What holds of the nodes to begin with and is passed on by the steps holds of a closure. -/
theorem closure_induction {ε : Type} {next : α → Except ε (List α)} {P : α → Prop}
    (hstep : ∀ a, P a → ∀ bs, next a = .ok bs → ∀ b ∈ bs, P b)
    {unfound pending found closed : List α} (hpending : ∀ a ∈ pending, P a)
    (hfound : ∀ a ∈ found, P a) (h : closure next unfound pending found = .ok closed) :
    ∀ a ∈ closed, P a := by
  fun_induction closure next unfound pending found with
  | case1 unfound found =>
    cases h
    exact hfound
  | case2 unfound found a pending e he => cases h
  | case3 unfound found a pending bs hbs ih =>
    obtain ⟨ha, hpending⟩ := List.forall_mem_cons.mp hpending
    have hamong : ∀ b ∈ among bs unfound, P b := by
      intro b hb
      exact hstep a ha bs hbs b (of_decide_eq_true (List.mem_filter.mp hb).2)
    exact ih (List.forall_mem_append.mpr ⟨hpending, hamong⟩)
      (List.forall_mem_append.mpr ⟨hfound, hamong⟩) h

/-- A closure holds no node twice if the nodes that it starts from are no others than it has yet to
find. -/
theorem nodup_closure {ε : Type} {next : α → Except ε (List α)}
    {unfound pending found closed : List α} (hnodup : (found ++ unfound).Nodup)
    (h : closure next unfound pending found = .ok closed) : closed.Nodup := by
  fun_induction closure next unfound pending found with
  | case1 unfound found =>
    cases h
    exact (List.nodup_append.mp hnodup).1
  | case2 unfound found a pending e he => cases h
  | case3 unfound found a pending bs hbs ih =>
    refine ih ?_ h
    have hsplit : (among bs unfound ++ others bs unfound).Perm unfound := by
      simpa only [among, others, decide_not] using List.filter_append_perm (· ∈ bs) unfound
    rw [List.append_assoc]
    exact (hsplit.append_left found).nodup_iff.mpr hnodup

end Walk

namespace Graph
variable {g : Graph}

theorem mem_reversePostorder {start : Node} (hs : g.contains start = true) (n : Node) :
    n ∈ g.reversePostorder start ↔ n ∈ g.nodes := by
  rw [reversePostorder, List.mem_reverse, postorder]
  exact Walk.mem_depthFirst _ (mem_nodes.mpr hs) n

theorem mem_backwardOrder (n : Node) : n ∈ g.backwardOrder ↔ n ∈ g.nodes := by
  have hexit : Node.exit ∈ g.nodes := mem_nodes.mpr rfl
  have h := Walk.mem_depthFirst g.predecessors hexit n
  rw [backwardOrder]
  simpa using h

end Graph

end FlowLint
