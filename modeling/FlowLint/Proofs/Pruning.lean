import FlowLint.Proofs.Feasible
import FlowLint.Proofs.Variables
import Mathlib.Data.Set.Finite.List
import Mathlib.Order.WellFounded

/-! # Pruning strands no statement

Comparisons are true, false or no constants, and the edges of a switch come from the cases that it
is judged by. So every statement on feasible nodes keeps an edge, unless it is a switch that matches
no case and has no default.
-/
namespace FlowLint

/-- Where every element of a list has a next one in the list, some elements form a cycle. -/
theorem exists_cycle {α : Type} {l : List α} {R : α → α → Prop} {a : α} (ha : a ∈ l)
    (h : ∀ b ∈ l, ∃ c ∈ l, R b c) :
    ∃ b, Relation.TransGen (fun u v => u ∈ l ∧ v ∈ l ∧ R u v) b b := by
  by_contra! hacyclic
  let after : {b // b ∈ l} → {b // b ∈ l} → Prop := fun v u =>
    Relation.TransGen (fun u v => u ∈ l ∧ v ∈ l ∧ R u v) u.1 v.1
  have : Finite {b // b ∈ l} := l.finite_toSet
  have : IsTrans _ after := ⟨fun _ _ _ huv hvw => hvw.trans huv⟩
  have : Std.Irrefl after := ⟨fun u => hacyclic u.1⟩
  -- an element behind which there is no other one has a next one all the same
  obtain ⟨⟨b, hb⟩, -, hlast⟩ :=
    (Finite.wellFounded_of_trans_of_irrefl after).has_min Set.univ ⟨⟨a, ha⟩, trivial⟩
  obtain ⟨c, hc, hR⟩ := h b hb
  exact hlast ⟨c, hc⟩ trivial (.single ⟨hb, hc, hR⟩)

namespace BinOp
variable {op : BinOp} {a b : Value} {n : Int}

theorem traps_of_comparison (h : op.family = .comparison) : op.traps = false := by
  cases op with
  | div | rem => cases h
  | _ => rfl

theorem exists_truth (h : op.family = .comparison) (i j : Int) :
    ∃ p, op.onWords i j = truth p := by
  cases op with
  | eq | ne | lt | le | gt | ge => exact ⟨_, rfl⟩
  | _ => cases h

/-- A comparison that is a constant is true or false. -/
theorem onValues_comparison (h : op.family = .comparison)
    (hn : op.onValues a b = .ok (.const n)) : n = 1 ∨ n = 0 := by
  obtain ⟨⟨i, rfl⟩, j, rfl⟩ := exists_const_of_onValues hn
  obtain ⟨p, hp⟩ := exists_truth h (Word32.wrap i) (Word32.wrap j)
  simp only [onValues, fold, traps_of_comparison h, hp] at hn
  cases hn
  cases p
  · exact .inr rfl
  · exact .inl rfl

end BinOp

def Expr.isComparison : Expr → Bool
  | .bin op _ _ => op.family = .comparison
  | _ => false

theorem Expr.eval_comparison {c : Expr} {f : Constants} {n : Int} (h : c.isComparison = true)
    (hn : c.eval f = .ok (.const n)) : n = 1 ∨ n = 0 := by
  cases c with
  | bin op l r =>
    obtain ⟨a, b, -, -, hab⟩ := eval_bin_eq hn
    exact BinOp.onValues_comparison (of_decide_eq_true h) hab
  | _ => cases h

/-- Whether an action, if it is a branch, has a comparison for its condition. -/
def Action.comparesInBranch {τ : Type} : Action τ → Bool
  | .branch c _ => c.isComparison
  | _ => true

/-- Whether an action is a switch that does nothing for what no case matches. -/
def Action.lacksDefault {τ : Type} : Action τ → Bool
  | .switch _ _ none => true
  | _ => false

namespace Method
variable {m : Method} {i : Nat} {es : List Edge} {f : Constants}

/-- The conditions of all branches are comparisons. -/
def ComparesInBranches (m : Method) : Prop := ∀ s ∈ m.body, s.action.comparesInBranch = true

instance (m : Method) : Decidable m.ComparesInBranches :=
  inferInstanceAs (Decidable (∀ s ∈ m.body, s.action.comparesInBranch = true))

/-- The edges of the cases whose constants are the same word, in order and with repeats. -/
def caseEdges (i : Nat) (n : Int) (cases : List (Int × Option Nat)) : List Edge :=
  cases.filterMap fun a =>
    if Word32.wrap a.1 = n then a.2.map fun t => ⟨.stmt i, .stmt t, .switchCase, some a.1⟩ else none

/-- The edges that an action at a position keeps under what is known before it. -/
inductive Keeps (m : Method) (i : Nat) (f : Constants) : Action Nat → List Edge → Prop
  | taken {c : Expr} (t : Nat) (h : c.eval f = .ok (.const 1)) :
    Keeps m i f (.branch c (some t)) [⟨.stmt i, .stmt t, .ifTrue, none⟩]
  | notTaken {c : Expr} (t : Nat) (h : c.eval f = .ok (.const 0)) :
    Keeps m i f (.branch c (some t)) [⟨.stmt i, m.nodeAt (i + 1), .ifFalse, none⟩]
  | both {c : Expr} {v : Value} (t : Nat) (h : c.eval f = .ok v) (hv : ∀ n, v ≠ .const n) :
    Keeps m i f (.branch c (some t))
      [⟨.stmt i, .stmt t, .ifTrue, none⟩, ⟨.stmt i, m.nodeAt (i + 1), .ifFalse, none⟩]
  | matched {x : Var} {n : Int} {cases : List (Int × Option Nat)} (d : Option Nat)
    (h : f.get x = .const n) (hn : ∃ a ∈ cases, Word32.wrap a.1 = n) :
    Keeps m i f (.switch x cases d) (caseEdges i n cases)
  | default {x : Var} {n : Int} {cases : List (Int × Option Nat)} (t : Nat)
    (h : f.get x = .const n) (hn : ∀ a ∈ cases, Word32.wrap a.1 ≠ n) :
    Keeps m i f (.switch x cases (some t)) [⟨.stmt i, .stmt t, .switchDefault, none⟩]
  | stuck {x : Var} {n : Int} {cases : List (Int × Option Nat)} (h : f.get x = .const n)
    (hn : ∀ a ∈ cases, Word32.wrap a.1 ≠ n) : Keeps m i f (.switch x cases none) []
  | all {x : Var} {cases : List (Int × Option Nat)} {d : Option Nat} {es : List Edge}
    (h : ∀ n, f.get x ≠ .const n) (hes : m.Leaves i (.switch x cases d) es) :
    Keeps m i f (.switch x cases d) es
  | plain {a : Action Nat} {es : List Edge} (hbranch : ∀ c t, a ≠ .branch c t)
    (hswitch : ∀ x cases d, a ≠ .switch x cases d) (hes : m.Leaves i a es) : Keeps m i f a es

theorem filter_arms {cases : List (Int × Option Nat)} {arms : List Edge}
    (h : List.Forall₂ (Arm i) cases arms) (vs : List Int) (n : Int) :
    arms.filter (switchAdmits vs (.const n)) = caseEdges i n cases := by
  induction h with
  | nil => rfl
  | cons harm hrest ih =>
    obtain ⟨k, t⟩ := harm
    by_cases hk : Word32.wrap k = n
    · simpa [caseEdges, switchAdmits, hk] using ih
    · simpa [caseEdges, switchAdmits, hk] using ih

theorem caseEdges_eq_nil {cases : List (Int × Option Nat)} {n : Int}
    (h : ∀ a ∈ cases, Word32.wrap a.1 ≠ n) : caseEdges i n cases = [] := by
  rw [caseEdges, List.filterMap_eq_nil_iff]
  exact fun a ha => if_neg (h a ha)

theorem caseEdges_ne_nil {cases : List (Int × Option Nat)} {n : Int}
    (hcomplete : ∀ a ∈ cases, a.2.isSome = true) (h : ∃ a ∈ cases, Word32.wrap a.1 = n) :
    caseEdges i n cases ≠ [] := by
  obtain ⟨⟨k, t⟩, ha, hk⟩ := h
  obtain ⟨t, rfl⟩ := Option.isSome_iff_exists.mp (hcomplete _ ha)
  refine List.ne_nil_of_mem (a := ⟨.stmt i, .stmt t, .switchCase, some k⟩) ?_
  exact List.mem_filterMap.mpr ⟨_, ha, if_pos hk⟩

theorem Leaves.ne_nil {a : Action Nat} (ha : a.lacksDefault = false) (h : m.Leaves i a es) :
    es ≠ [] := by
  cases h with
  | switch x d harms =>
    cases d with
    | none => cases ha
    | some t => simp
  | _ => exact List.cons_ne_nil _ _

/-- An action keeps an edge, unless it is a switch without a default. -/
theorem Keeps.ne_nil {a : Action Nat} (hcomplete : a.Complete) (ha : a.lacksDefault = false)
    (h : m.Keeps i f a es) : es ≠ [] := by
  cases h with
  | taken | notTaken | both | default => exact List.cons_ne_nil _ _
  | matched d hx hn => exact caseEdges_ne_nil hcomplete hn
  | stuck => cases ha
  | all hx hes | plain hbranch hswitch hes => exact hes.ne_nil ha

end Method

namespace Graph
variable {m : Method} {g : Graph} {f : Constants} {i : Nat} {s : Stmt Nat} {es : List Edge}

theorem feasibleEdges_branch {c : Expr} {t : Option Nat} {line : Int}
    (hes : m.Leaves i (.branch c t) (g.outEdges (.stmt i))) (hc : c.isComparison = true)
    (hs : g.method.stmtAt (.stmt i) = ⟨line, .branch c t⟩)
    (h : g.feasibleEdges (.ok f) (.stmt i) = .ok es) : m.Keeps i f (.branch c t) es := by
  rw [feasibleEdges, hs] at h
  change (c.eval f >>= fun v => _) = _ at h
  obtain ⟨v, hv, h⟩ := exists_of_bind h
  cases h
  generalize g.outEdges (.stmt i) = out at hes
  cases hes with
  | branch c t =>
    cases v with
    | const n =>
      rcases c.eval_comparison hc hv with rfl | rfl
      · exact .taken t hv
      · exact .notTaken t hv
    | undef | nac =>
      refine .both t hv fun n hn => ?_
      cases hn

theorem feasibleEdges_switch {x : Var} {cases : List (Int × Option Nat)} {d : Option Nat}
    {line : Int} (hes : m.Leaves i (.switch x cases d) (g.outEdges (.stmt i)))
    (hs : g.method.stmtAt (.stmt i) = ⟨line, .switch x cases d⟩)
    (h : g.feasibleEdges (.ok f) (.stmt i) = .ok es) : m.Keeps i f (.switch x cases d) es := by
  rw [feasibleEdges, hs] at h
  change Except.ok ((g.outEdges (.stmt i)).filter (switchAdmits (cases.map (·.1)) (f.get x))) = _ at h
  obtain rfl := Except.ok.inj h
  by_cases hconst : ∃ n, f.get x = .const n
  · obtain ⟨n, hn⟩ := hconst
    rw [hn]
    generalize g.outEdges (.stmt i) = out at hes
    obtain ⟨⟩ | ⟨⟩ | ⟨x, d, harms⟩ := hes
    rw [List.filter_append, Method.filter_arms harms]
    by_cases hmatch : ∃ a ∈ cases, Word32.wrap a.1 = n
    · rw [List.filter_eq_nil_iff (l := d.toList.map _) |>.mpr, List.append_nil]
      · exact .matched d hn hmatch
      · intro e he
        obtain ⟨t, -, rfl⟩ := List.mem_map.mp he
        simpa [switchAdmits] using hmatch
    · push Not at hmatch
      rw [Method.caseEdges_eq_nil hmatch, List.nil_append]
      cases d with
      | none => exact .stuck hn hmatch
      | some t =>
        rw [List.filter_eq_self.mpr (by simpa [switchAdmits] using hmatch)]
        exact .default t hn hmatch
  · push Not at hconst
    rw [List.filter_eq_self.mpr fun e _ => ?_]
    · exact .all hconst hes
    · cases hx : f.get x with
      | const n => exact absurd hx (hconst n)
      | undef | nac => rfl

/-- What a statement keeps: a branch one edge or both, a switch the cases that match or else its
default, and any other statement its only edge. -/
theorem exists_keeps (hb : build m = .ok g) (hm : m.ComparesInBranches)
    (hf : ∀ x, (f.get x).IsWord) (hs : m.body[i]? = some s) :
    ∃ es, g.feasibleEdges (.ok f) (.stmt i) = .ok es ∧ m.Keeps i f s.action es := by
  have hflow := build_isFlowOf hb
  have hleaves := hflow.outEdges_stmt i s hs
  have hstmt : g.method.stmtAt (.stmt i) = s := by
    rw [hflow.method_eq, Method.stmtAt_of_body hs]
  obtain ⟨es, hes, -⟩ := exists_feasibleEdges (g := g) hf (.stmt i)
  refine ⟨es, hes, ?_⟩
  obtain ⟨line, action⟩ := s
  cases action with
  | branch c t =>
    have hc : c.isComparison = true := hm _ (List.mem_of_getElem? hs)
    exact feasibleEdges_branch hleaves hc hstmt hes
  | switch x cases d => exact feasibleEdges_switch hleaves hstmt hes
  | nop | assign | invoke | goto | ret =>
    rw [feasibleEdges, hstmt] at hes
    cases hes
    refine .plain (fun c t h => ?_) (fun x cases d h => ?_) hleaves <;> cases h

/-- A node of the graph keeps an edge, unless it is the exit or a switch without a default. -/
theorem exists_feasibleEdge (hb : build m = .ok g) (hm : m.ComparesInBranches)
    (hf : ∀ x, (f.get x).IsWord) {n : Node} (hn : g.contains n = true) (hexit : n ≠ .exit)
    (hdefault : (g.method.stmtAt n).action.lacksDefault = false) :
    ∃ es, g.feasibleEdges (.ok f) n = .ok es ∧ es ≠ [] := by
  obtain ⟨hmethod, hg, hcomplete, hedges⟩ := build_spec hb
  cases n with
  | entry =>
    have hentry : ⟨.entry, m.nodeAt 0, .normal, none⟩ ∈ g.edges := (hedges _).mpr (.inl rfl)
    exact ⟨g.outEdges .entry, rfl, List.ne_nil_of_mem ((mem_outEdges hg).mpr ⟨hentry, rfl⟩)⟩
  | stmt i =>
    have hi : i < m.size := hmethod ▸ of_decide_eq_true hn
    have hs : m.body[i]? = some m.body[i] := List.getElem?_eq_getElem hi
    obtain ⟨es, hes, hkeeps⟩ := exists_keeps hb hm hf hs
    rw [hmethod, Method.stmtAt_of_body hs] at hdefault
    exact ⟨es, hes, hkeeps.ne_nil (hcomplete _ (List.getElem_mem hi)) hdefault⟩
  | exit => exact absurd rfl hexit
  | stray => cases hn

/-- Pruning under facts about constants leaves every feasible node a way to go on. -/
structure StrandsNone (g : Graph) (r : Solution Constants) (nodes : List Node) : Prop where
  keeps : ∀ i s, g.method.body[i]? = some s → ∃ es,
    g.feasibleEdges (.ok (r.before (.stmt i))) (.stmt i) = .ok es ∧
      g.method.Keeps i (r.before (.stmt i)) s.action es
  goes_on : ∀ n ∈ nodes, n ≠ .exit → (g.method.stmtAt n).action.lacksDefault = false →
    ∃ e ∈ g.outEdges n, (g.method.stmtAt n).action.Admits (r.before n) e ∧ e.target ∈ nodes
  /-- If no switch lacks a default, then the exit is feasible or some feasible nodes form a
  cycle. -/
  exit_or_cycle : (∀ s ∈ g.method.body, s.action.lacksDefault = false) → .exit ∈ nodes ∨
    ∃ n, Relation.TransGen (fun u v => u ∈ nodes ∧ v ∈ nodes ∧ g.Leads u v) n n

/-- Where branches compare, no feasible node of a control flow is stranded, under any facts whose
constants are words. -/
theorem exists_strandsNone (hb : build m = .ok g) (hm : m.ComparesInBranches)
    {r : Solution Constants} (hr : r.KnowsWords) :
    ∃ nodes, g.feasible r = .ok nodes ∧ g.StrandsNone r nodes := by
  obtain ⟨hmethod, hg, -⟩ := build_spec hb
  obtain ⟨nodes, hnodes, hentry, hclosed⟩ := exists_feasible hg hr
  have hcontains := contains_of_mem_feasible hg hr hnodes
  have hgoes : ∀ n ∈ nodes, n ≠ .exit → (g.method.stmtAt n).action.lacksDefault = false →
      ∃ e ∈ g.outEdges n, (g.method.stmtAt n).action.Admits (r.before n) e ∧ e.target ∈ nodes := by
    intro n hn hexit hdefault
    obtain ⟨es, hes, hne⟩ := exists_feasibleEdge hb hm (hr n) (hcontains n hn) hexit hdefault
    obtain ⟨e, he⟩ := List.exists_mem_of_ne_nil es hne
    obtain ⟨es', hes', hmem⟩ := exists_feasibleEdges (g := g) (hr n) n
    obtain rfl := Except.ok.inj (hes.symm.trans hes')
    obtain ⟨hout, hadmits⟩ := (hmem e).mp he
    exact ⟨e, hout, hadmits, hclosed n hn es hes e he⟩
  refine ⟨nodes, hnodes, fun i s hs => ?_, hgoes, fun hdefault => ?_⟩
  · rw [hmethod] at hs ⊢
    exact exists_keeps hb hm (hr (.stmt i)) hs
  · rw [or_iff_not_imp_left]
    intro hexit
    refine exists_cycle hentry fun n hn => ?_
    have hne : n ≠ .exit := fun he => hexit (he ▸ hn)
    have hn' : (g.method.stmtAt n).action.lacksDefault = false := by
      rcases g.method.mem_body_or_nop n with hbody | ⟨label, hnop⟩
      · exact hdefault _ hbody
      · rw [hnop]
        rfl
    obtain ⟨e, he, -, htarget⟩ := hgoes n hn hne hn'
    obtain ⟨he, hsource⟩ := (mem_outEdges hg).mp he
    exact ⟨e.target, htarget, e, he, hsource, rfl⟩

/-- A loop over a switch on a known word, two of whose cases are that word, and a branch that is
always taken. -/
def dispatching : Method where
  name := "dispatch"
  file := "dispatch.ir"
  params := []
  body := [
    ⟨1, .assign (.var ⟨"k", "k", .prim .int⟩) (.lit 1)⟩,
    ⟨2, .switch ⟨"k", "k", .prim .int⟩ [(1, some 2), (4294967297, some 3), (2, some 4)] (some 4)⟩,
    ⟨3, .goto (some 1)⟩,
    ⟨4, .branch (.bin .eq (.var ⟨"k", "k", .prim .int⟩) (.lit 1)) (some 1)⟩,
    ⟨5, .ret none⟩]
  targets_lt := by decide

/-- The switch keeps two of its four edges, and the loop is never left. -/
theorem dispatching_strandsNone : ∃ g r nodes, build dispatching = .ok g ∧
    dispatching.ComparesInBranches ∧
    (∀ s ∈ dispatching.body, s.action.lacksDefault = false) ∧
    solve ConstantPropagation.analysis .fifo 100 g = .ok r ∧ r.converged = true ∧
    g.feasible r = .ok nodes ∧ g.StrandsNone r nodes ∧ .exit ∉ nodes ∧
    ∃ n, Relation.TransGen (fun u v => u ∈ nodes ∧ v ∈ nodes ∧ g.Leads u v) n n := by
  obtain ⟨g, r, hb, hr, hconv, hexit⟩ : ∃ g r, build dispatching = .ok g ∧
      solve ConstantPropagation.analysis .fifo 100 g = .ok r ∧ r.converged = true ∧
      ((g.feasible r).toOption.map fun nodes => decide (.exit ∈ nodes)) = some false := by
    refine ⟨_, _, rfl, rfl, rfl, ?_⟩
    decide +kernel
  have hm : dispatching.ComparesInBranches := by decide
  have hdefault : ∀ s ∈ dispatching.body, s.action.lacksDefault = false := by decide
  obtain ⟨hmethod, hg, -⟩ := build_spec hb
  have hwords : r.KnowsWords := fun n => (ConstantPropagation.before_valid hg hr n).words
  obtain ⟨nodes, hnodes, hstrands⟩ := exists_strandsNone hb hm hwords
  rw [hnodes] at hexit
  have hexit : .exit ∉ nodes := of_decide_eq_false (Option.some.inj hexit)
  have hcycle := (hstrands.exit_or_cycle (hmethod ▸ hdefault)).resolve_left hexit
  exact ⟨g, r, nodes, hb, hm, hdefault, hr, hconv, hnodes, hstrands, hexit, hcycle⟩

end Graph

end FlowLint
