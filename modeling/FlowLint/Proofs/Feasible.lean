import FlowLint.Feasible
import FlowLint.Proofs.Dataflow.ConstantPropagation
import FlowLint.Proofs.Graph.Walks
import Mathlib.Order.Bounds.Defs

/-! # What feasible edges reach

Under the facts of a run no condition fails to evaluate, so there is a set of feasible nodes. It
contains the entry, and with a node the targets of its feasible edges.
-/
namespace FlowLint

/-- Whether an action lets an edge be taken under what is known before it. -/
def Action.Admits (a : Action Nat) (known : Constants) (e : Edge) : Prop :=
  match a with
  | .branch c _ => ∃ v, c.eval known = .ok v ∧ branchAdmits v e = true
  | .switch x cases _ => switchAdmits (cases.map (·.1)) (known.get x) e = true
  | _ => True

instance (a : Action Nat) (known : Constants) (e : Edge) : Decidable (a.Admits known e) :=
  match a with
  | .branch c _ =>
    match h : c.eval known with
    | .ok v => decidable_of_iff (branchAdmits v e = true)
      ⟨fun hv => ⟨v, h, hv⟩, fun ⟨_, hw, hv⟩ => Except.ok.inj (h.symm.trans hw) ▸ hv⟩
    | .error _ => isFalse fun ⟨_, hw, _⟩ => nomatch h.symm.trans hw
  | .switch _ cases _ => inferInstanceAs (Decidable (switchAdmits (cases.map (·.1)) _ e = true))
  | .nop _ | .assign .. | .invoke .. | .goto _ | .ret _ => isTrue trivial

/-- All constants that are known before nodes are words. -/
def Solution.KnowsWords (r : Solution Constants) : Prop := ∀ n x, ((r.before n).get x).IsWord

namespace Graph
variable {g : Graph} {f f' : Constants} {n : Node}

theorem feasibleEdges_congr (h : ∀ x, f.get x = f'.get x) (n : Node) :
    g.feasibleEdges (.ok f) n = g.feasibleEdges (.ok f') n := by
  rw [feasibleEdges, feasibleEdges]
  split
  · next c t _ =>
    change (c.eval f >>= fun v => _) = (c.eval f' >>= fun v => _)
    rw [c.eval_congr h]
  · next x cases d _ =>
    change (Expr.eval f (.var x) >>= fun v => _) = (Expr.eval f' (.var x) >>= fun v => _)
    rw [Expr.eval_congr h]
  · rfl

theorem exists_feasibleEdges (hf : ∀ x, (f.get x).IsWord) (n : Node) :
    ∃ es, g.feasibleEdges (.ok f) n = .ok es ∧
      ∀ e, e ∈ es ↔ e ∈ g.outEdges n ∧ (g.method.stmtAt n).action.Admits f e := by
  rw [feasibleEdges]
  cases (g.method.stmtAt n).action with
  | branch c t =>
    obtain ⟨v, hv, -⟩ := c.eval_word hf
    refine ⟨(g.outEdges n).filter (branchAdmits v), ?_, fun e => ?_⟩
    · change (c.eval f >>= fun v => _) = _
      rw [hv]
      rfl
    · rw [List.mem_filter]
      refine and_congr_right fun _ => ⟨fun h => ⟨v, hv, h⟩, ?_⟩
      rintro ⟨w, hw, h⟩
      rwa [Except.ok.inj (hv.symm.trans hw)]
  | switch x cases d =>
    exact ⟨_, rfl, fun e => List.mem_filter⟩
  | _ => exact ⟨_, rfl, fun e => (and_iff_left trivial).symm⟩

theorem feasibleEdges_spec (hf : f.Valid) (n : Node) :
    ∃ es, g.feasibleEdges (.ok f) n = .ok es ∧
      ∀ e, e ∈ es ↔ e ∈ g.outEdges n ∧ (g.method.stmtAt n).action.Admits f e :=
  exists_feasibleEdges hf.words n

/-- Feasible edges from the nodes do not lead out of them. -/
def FeasiblyClosed (g : Graph) (r : Solution Constants) (nodes : List Node) : Prop :=
  ∀ n ∈ nodes, ∀ es, g.feasibleEdges (.ok (r.before n)) n = .ok es → ∀ e ∈ es, e.target ∈ nodes

/-- There are feasible nodes, and they are closed under feasible edges. -/
theorem exists_feasible (hg : g.Consistent) {r : Solution Constants} (hr : r.KnowsWords) :
    ∃ nodes, g.feasible r = .ok nodes ∧ .entry ∈ nodes ∧ g.FeasiblyClosed r nodes := by
  choose es hes hmem using fun n => exists_feasibleEdges (g := g) (hr n) n
  have hnext : ∀ n, (do return (← g.feasibleEdges (.ok (r.before n)) n).map (·.target) :
      Except Error (List Node)) = .ok ((es n).map (·.target)) := by
    intro n
    rw [hes n]
    rfl
  have hstay : ∀ n, ∀ k ∈ (es n).map (·.target), k ∈ g.nodes.erase .entry ∨ k ∈ [Node.entry] := by
    intro n k hk
    obtain ⟨e, he, rfl⟩ := List.mem_map.mp hk
    have he := ((mem_outEdges hg).mp ((hmem n e).mp he).1).1
    have hnode := mem_nodes.mpr (hg.contains_target e he)
    by_cases hentry : e.target = .entry
    · exact .inr (List.mem_singleton.mpr hentry)
    · exact .inl ((List.mem_erase_of_ne hentry).mpr hnode)
  have hpending : ∀ n ∈ [Node.entry], n ∉ [Node.entry] →
      ∀ k ∈ (es n).map (·.target), k ∈ [Node.entry] := fun n hn hnot => absurd hn hnot
  obtain ⟨nodes, hnodes, hfound, hclosed⟩ := Walk.closure_spec hnext hstay hpending
  refine ⟨nodes, hnodes, hfound _ List.mem_cons_self, fun n hn es' hes' e he => ?_⟩
  obtain rfl : es n = es' := Except.ok.inj ((hes n).symm.trans hes')
  exact hclosed n hn e.target (List.mem_map_of_mem he)

theorem feasible_spec (hg : g.Consistent) {r : Solution Constants} (hr : ∀ n, (r.before n).Valid) :
    ∃ nodes, g.feasible r = .ok nodes ∧ .entry ∈ nodes ∧ g.FeasiblyClosed r nodes :=
  exists_feasible hg fun n => (hr n).words

/-- The feasible nodes are among any nodes that contain the entry and are closed under feasible
edges. -/
theorem feasible_induction {r : Solution Constants} {nodes : List Node} {P : Node → Prop}
    (hentry : P .entry) (hstep : ∀ n, P n → ∀ es, g.feasibleEdges (.ok (r.before n)) n = .ok es →
      ∀ e ∈ es, P e.target) (h : g.feasible r = .ok nodes) : ∀ n ∈ nodes, P n := by
  have hstart : ∀ n ∈ [Node.entry], P n := by
    intro n hn
    rwa [List.mem_singleton.mp hn]
  apply Walk.closure_induction _ hstart hstart h
  intro n hn ks hks k hk
  obtain ⟨es, hes, hks⟩ := exists_of_bind hks
  cases hks
  obtain ⟨e, he, rfl⟩ := List.mem_map.mp hk
  exact hstep n hn es hes e he

theorem contains_of_mem_feasible (hg : g.Consistent) {r : Solution Constants} (hr : r.KnowsWords)
    {nodes : List Node} (h : g.feasible r = .ok nodes) : ∀ n ∈ nodes, g.contains n = true := by
  refine feasible_induction rfl (fun n _ es hes e he => ?_) h
  obtain ⟨es', hes', hmem⟩ := exists_feasibleEdges (g := g) (hr n) n
  obtain rfl := Except.ok.inj (hes.symm.trans hes')
  exact hg.contains_target e ((mem_outEdges hg).mp ((hmem e).mp he).1).1

/-- Nodes among which the entry is, and which no edge leaves that may be taken under what is known
before its source. -/
def Follows (g : Graph) (r : Solution Constants) (S : Set Node) : Prop :=
  .entry ∈ S ∧ ∀ n ∈ S, ∀ e ∈ g.outEdges n,
    (g.method.stmtAt n).action.Admits (r.before n) e → e.target ∈ S

/-- The feasible nodes are the least ones that contain the entry and that no feasible edge
leaves. -/
theorem feasible_isLeast {r : Solution Constants} (hr : r.KnowsWords) {nodes : List Node}
    (hentry : .entry ∈ nodes) (hclosed : g.FeasiblyClosed r nodes) (h : g.feasible r = .ok nodes) :
    IsLeast {S | g.Follows r S} {n | n ∈ nodes} := by
  choose es hes hmem using fun n => exists_feasibleEdges (g := g) (hr n) n
  constructor
  · refine ⟨hentry, fun n hn e he hadmits => ?_⟩
    exact hclosed n hn (es n) (hes n) e ((hmem n e).mpr ⟨he, hadmits⟩)
  · rintro S ⟨hS, hstep⟩
    refine feasible_induction hS (fun n hn es' hes' e he => ?_) h
    obtain rfl : es n = es' := Except.ok.inj ((hes n).symm.trans hes')
    obtain ⟨hout, hadmits⟩ := (hmem n e).mp he
    exact hstep n hn e hout hadmits

/-- The first facts let every edge be taken that the second ones do. -/
def PrunesLess (g : Graph) (r r' : Solution Constants) : Prop :=
  ∀ n ∈ g.nodes, ∀ e ∈ g.outEdges n, (g.method.stmtAt n).action.Admits (r'.before n) e →
    (g.method.stmtAt n).action.Admits (r.before n) e

instance (g : Graph) (r r' : Solution Constants) : Decidable (g.PrunesLess r r') :=
  inferInstanceAs (Decidable (∀ n ∈ g.nodes, ∀ e ∈ g.outEdges n, _ → _))

/-- Facts that prune less reach more. -/
theorem feasible_subset (hg : g.Consistent) {r r' : Solution Constants} {nodes nodes' : List Node}
    (hr : ∀ n, (r.before n).Valid) (hr' : ∀ n, (r'.before n).Valid) (hless : g.PrunesLess r r')
    (h : g.feasible r = .ok nodes) (h' : g.feasible r' = .ok nodes') :
    ∀ n ∈ nodes', n ∈ nodes := by
  obtain ⟨_, hnodes, hentry, hclosed⟩ := feasible_spec hg hr
  obtain rfl := Except.ok.inj (h.symm.trans hnodes)
  have hcontains := contains_of_mem_feasible hg (fun n => (hr n).words) h
  refine feasible_induction hentry (fun n hn es' hes' e he => ?_) h'
  obtain ⟨es, hes, hmem⟩ := feasibleEdges_spec (g := g) (hr n) n
  obtain ⟨_, hes'', hmem'⟩ := feasibleEdges_spec (g := g) (hr' n) n
  obtain rfl := Except.ok.inj (hes'.symm.trans hes'')
  obtain ⟨hout, hadmits⟩ := (hmem' e).mp he
  have hkept := hless n (mem_nodes.mpr (hcontains n hn)) e hout hadmits
  exact hclosed n hn es hes e ((hmem e).mpr ⟨hout, hkept⟩)

end Graph

end FlowLint
