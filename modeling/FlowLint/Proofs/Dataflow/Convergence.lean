import FlowLint.Proofs.Dataflow.LeastSolution
import FlowLint.Proofs.Dataflow.Visits
import FlowLint.Proofs.Variables
import Mathlib.Algebra.Order.BigOperators.Group.List
import Mathlib.Algebra.Order.Ring.Nat

/-! # Convergence

A fact has a level at every variable, zero where it does not mention the variable and two at most.
What a node consumes only ascends, and as long as it stays the same the node produces the same. So
a node changes what it produces at its first visit and when it has ascended, however its transfer
behaves, and every run ends within a number of visits that the size of the method bounds.
-/
namespace FlowLint
open Solver
variable {φ : Type}

/-- An analysis whose facts have a level of at most two at every variable. Nothing new is mentioned
but parameters at the boundary and the variables of a statement after it, and facts that are below
each other have transfers that are. The transfer need not be monotone. -/
structure Analysis.Levelled (a : Analysis φ) (valid : φ → Prop) (le : φ → φ → Prop)
    (level : φ → Var → Nat) : Prop where
  level_le_two : ∀ f x, level f x ≤ 2
  level_mono : ∀ {f h}, le f h → ∀ x, level f x ≤ level h x
  le_of_level : ∀ {f h}, le f h → (∀ x, level f x = level h x) → le h f
  transfer_congr : ∀ {s f h u w}, valid f → valid h → le f h → le h f →
    a.transfer s f = .ok u → a.transfer s h = .ok w → le u w
  initial : ∀ x, level a.initial x = 0
  boundary : ∀ {m x}, level (a.boundary m) x ≠ 0 → x ∈ m.params
  merge : ∀ {f t x}, valid f → valid t → level (a.merge f t) x ≠ 0 →
    level f x ≠ 0 ∨ level t x ≠ 0
  transfer : ∀ {s f h x}, a.transfer s f = .ok h → level h x ≠ 0 →
    level f x ≠ 0 ∨ s.action.defines? = some x ∨ x ∈ s.action.uses

theorem eq_of_sum_map_le {α : Type} {l : List α} {f h : α → Nat} (hle : ∀ x ∈ l, f x ≤ h x)
    (hsum : (l.map h).sum ≤ (l.map f).sum) : ∀ x ∈ l, f x = h x := by
  intro x hx
  by_contra hne
  have hlt : (l.map f).sum < (l.map h).sum :=
    List.sum_lt_sum f h hle ⟨x, hx, lt_of_le_of_ne (hle x hx) hne⟩
  omega

theorem sum_map_le_mul {α : Type} {l : List α} {f : α → Nat} {c : Nat} (hle : ∀ x ∈ l, f x ≤ c) :
    (l.map f).sum ≤ c * l.length := by
  have hsum := (l.map f).sum_le_card_nsmul c (by simpa using hle)
  rw [List.length_map] at hsum
  exact hsum.trans_eq (Nat.mul_comm l.length c)

theorem sum_map_add_countP_le {α : Type} {l : List α} {f h : α → Nat} {p : α → Prop}
    [DecidablePred p] (hle : ∀ x ∈ l, f x + (if p x then 1 else 0) ≤ h x) :
    (l.map f).sum + l.countP p ≤ (l.map h).sum := by
  induction l with
  | nil => simp
  | cons x l ih =>
    obtain ⟨hx, hl⟩ := List.forall_mem_cons.mp hle
    have hrest := ih hl
    simp only [List.map_cons, List.sum_cons, List.countP_cons, decide_eq_true_eq]
    omega

namespace Solver
variable {a : Analysis φ} {valid : φ → Prop} {le : φ → φ → Prop} {level : φ → Var → Nat}
  {g : Graph} {m : Method} {s : Strategy} {st st' : State φ} {n k : Node} {rest : Worklist Node}
  {ns seen : List Node} {f f' : φ}

/-- A fact that mentions variables of the method only. -/
def Within (level : φ → Var → Nat) (m : Method) (f : φ) : Prop := ∀ x, level f x ≠ 0 → x ∈ m.vars

/-- The sum of the levels of the variables of a method. -/
def rank (level : φ → Var → Nat) (m : Method) (f : φ) : Nat := (m.vars.map (level f)).sum

theorem rank_le (hv : a.Levelled valid le level) (m : Method) (f : φ) :
    rank level m f ≤ 2 * m.vars.length := sum_map_le_mul fun x _ => hv.level_le_two f x

theorem rank_mono (hv : a.Levelled valid le level) (m : Method) (hle : le f f') :
    rank level m f ≤ rank level m f' :=
  List.sum_le_sum fun x _ => hv.level_mono hle x

/-- A fact that has ascended without a higher rank is where it was. -/
theorem le_of_rank_le (hv : a.Levelled valid le level) (hle : le f f') (hw : Within level m f')
    (hrank : rank level m f' ≤ rank level m f) : le f' f := by
  apply hv.le_of_level hle
  intro x
  have hmono := hv.level_mono hle x
  by_cases hx : x ∈ m.vars
  · exact eq_of_sum_map_le (fun x _ => hv.level_mono hle x) hrank x hx
  · have hzero : level f' x = 0 := by
      by_contra hne
      exact hx (hw x hne)
    omega

/-- The facts of a state mention variables of the method only. -/
def State.Within (a : Analysis φ) (level : φ → Var → Nat) (m : Method) (st : State φ) : Prop :=
  ∀ n, Solver.Within level m (st.consumedAt a n) ∧ Solver.Within level m (st.producedAt a n)

theorem keeps_within (hl : a.Lawful valid le) (hv : a.Levelled valid le level) (m : Method) :
    a.Keeps m fun f => valid f ∧ Solver.Within level m f where
  initial := ⟨hl.initial_valid, fun x hx => absurd (hv.initial x) hx⟩
  boundary := ⟨hl.boundary_valid m, fun _ hx => Method.mem_vars.mpr (.inl (hv.boundary hx))⟩
  merge hf ht :=
    ⟨hl.merge_valid hf.1 ht.1, fun x hx => (hv.merge hf.1 ht.1 hx).elim (hf.2 x) (ht.2 x)⟩
  transfer n f hf := by
    obtain ⟨h, hh, hvalid⟩ := hl.transfer_valid (m.stmtAt n) hf.1
    refine ⟨h, hh, hvalid, fun x hx => ?_⟩
    exact (hv.transfer hh hx).elim (hf.2 x) Method.mem_vars_of_stmtAt

theorem start_within (hl : a.Lawful valid le) (hv : a.Levelled valid le level) (s : Strategy)
    (g : Graph) : (start a s g).Within a level g.method := by
  have hall := start_all (keeps_within hl hv g.method) s
  exact fun n => ⟨(hall n).1.2, (hall n).2.2⟩

theorem step_within (hl : a.Lawful valid le) (hv : a.Levelled valid le level)
    (hinv : st.Invariant a valid le g) (hst : st.Within a level g.method)
    (h : step a g st n rest = .ok st') : st'.Within a level g.method := by
  have hall : st.All a fun f => valid f ∧ Solver.Within level g.method f := fun k =>
    ⟨⟨hinv.consumed_valid k, (hst k).1⟩, hinv.produced_valid k, (hst k).2⟩
  obtain ⟨st₁, h₁, hall'⟩ := step_all (keeps_within hl hv g.method) hall n rest
  obtain rfl := Except.ok.inj (h.symm.trans h₁)
  exact fun k => ⟨(hall' k).1.2, (hall' k).2.2⟩

/-- How often a node may still change what it produces: at its first visit, and each time that what
it consumes ascends. -/
def changesLeft (a : Analysis φ) (level : φ → Var → Nat) (m : Method) (st : State φ)
    (seen : List Node) (n : Node) : Nat :=
  2 * m.vars.length - rank level m (st.consumedAt a n) + if n ∈ seen then 0 else 1

/-- The node whose produced facts an edge carries on. -/
def origin (d : Direction) (e : Edge) : Node :=
  match d with
  | .forward => e.source
  | .backward => e.target

theorem length_targets (hg : g.Consistent) (d : Direction) (n : Node) :
    (targets d g n).length = g.edges.countP (origin d · = n) := by
  cases d with
  | forward =>
    rw [targets, Graph.successors, List.length_map, hg.outEdges_eq, List.countP_eq_length_filter]
    rfl
  | backward =>
    rw [targets, Graph.predecessors, List.length_map, hg.inEdges_eq, List.countP_eq_length_filter]
    rfl

/-- How many visits a state may lead to at most: the pending ones, and for every change those of
the targets of the node. -/
def visitsLeft (a : Analysis φ) (level : φ → Var → Nat) (g : Graph) (st : State φ)
    (seen : List Node) : Nat :=
  st.worklist.members.length +
    (g.edges.map fun e => changesLeft a level g.method st seen (origin a.direction e)).sum

theorem changesLeft_le (a : Analysis φ) (level : φ → Var → Nat) (m : Method) (st : State φ)
    (seen : List Node) (n : Node) : changesLeft a level m st seen n ≤ 2 * m.vars.length + 1 := by
  rw [changesLeft]
  split <;> omega

theorem length_step_le (hinv : st.Invariant a valid le g)
    (hpop : st.worklist.pop? = some (n, rest)) (h : step a g st n rest = .ok st') :
    st'.worklist.members.length ≤ rest.members.length +
      if a.same (st.producedAt a n) (st'.producedAt a n) = false then
        (targets a.direction g n).length else 0 := by
  obtain ⟨f, hf, -, hproduced⟩ := hinv.visit_facts hpop h
  rw [hproduced, if_pos rfl]
  obtain ⟨f', hf', rfl⟩ := step_eq h
  obtain rfl : f = f' := Except.ok.inj (hf.symm.trans hf')
  cases a.same (st.producedAt a n) f with
  | true => exact Nat.le_refl _
  | false =>
    have hpushed := Worklist.length_pushAll_le rest
      ((targets a.direction g n).filter (· ≠ startNode a.direction))
    exact hpushed.trans (Nat.add_le_add_left (List.length_filter_le _ _) _)

section
variable (hl : a.Lawful valid le) (hv : a.Levelled valid le level)
  (hinv : st.Invariant a valid le g) (hst : st.Within a level g.method)
  (hbal : ∀ k ∈ seen, st.Balanced a g k)
  (hpop : st.worklist.pop? = some (n, rest)) (h : step a g st n rest = .ok st')
include hl hv hinv hst hbal hpop h

/-- A node that has been visited changes what it produces only if what it consumes ascends to a
higher rank. -/
theorem rank_lt_of_changed (hn : n ∈ seen)
    (hchanged : a.same (st.producedAt a n) (st'.producedAt a n) = false) :
    rank level g.method (st.consumedAt a n) < rank level g.method (st'.consumedAt a n) := by
  obtain ⟨f, hf, hconsumed, hproduced⟩ := hinv.visit_facts hpop h
  have hwithin := (step_within hl hv hinv hst h n).1
  have hle := step_ascends hl hinv hpop h n
  obtain ⟨hcv, -⟩ := hinv.consume_spec hl n
  obtain ⟨f', hf', hfv⟩ := hl.transfer_valid (g.method.stmtAt n) hcv
  obtain rfl : f = f' := Except.ok.inj (hf.symm.trans hf')
  -- otherwise the node consumes what it did at its last visit, and produces it too
  by_contra hnot
  have hge := le_of_rank_le hv hle hwithin (Nat.le_of_not_lt hnot)
  rw [hconsumed, if_pos rfl] at hle hge
  rw [hproduced, if_pos rfl] at hchanged
  have hsame : a.same (st.producedAt a n) f = true :=
    (hl.same_iff (hinv.produced_valid n) hfv).mpr
      ⟨hv.transfer_congr (hinv.consumed_valid n) hcv hle hge (hbal n hn) hf,
        hv.transfer_congr hcv (hinv.consumed_valid n) hge hle hf (hbal n hn)⟩
  rw [hsame] at hchanged
  cases hchanged

/-- A visit uses up a change of the node if the node changes what it produces. -/
theorem changesLeft_step (k : Node) :
    changesLeft a level g.method st' (seen ++ [n]) k +
      (if k = n ∧ a.same (st.producedAt a n) (st'.producedAt a n) = false then 1 else 0) ≤
    changesLeft a level g.method st seen k := by
  obtain ⟨f, hf, hconsumed, hproduced⟩ := hinv.visit_facts hpop h
  by_cases hkn : n = k
  · subst hkn
    have hmono := rank_mono hv g.method (step_ascends hl hinv hpop h n)
    have hmax := rank_le hv g.method (st'.consumedAt a n)
    rw [changesLeft, changesLeft, if_pos (List.mem_append_right _ List.mem_cons_self)]
    by_cases hchanged : a.same (st.producedAt a n) (st'.producedAt a n) = false
    · rw [if_pos ⟨rfl, hchanged⟩]
      by_cases hn : n ∈ seen
      · have hlt := rank_lt_of_changed hl hv hinv hst hbal hpop h hn hchanged
        omega
      · rw [if_neg hn]
        omega
    · rw [if_neg fun hand => hchanged hand.2]
      omega
  · have hmem : k ∈ seen ++ [n] ↔ k ∈ seen := by
      rw [List.mem_append, List.mem_singleton, or_iff_left fun he => hkn he.symm]
    rw [if_neg fun hand => hkn hand.1.symm, changesLeft, changesLeft, hconsumed, if_neg hkn]
    simp only [hmem]
    exact Nat.le_refl _

/-- A visit takes a node from the pending ones, and makes others pending only by using up changes
of the node. -/
theorem visitsLeft_step (hg : g.Consistent) :
    visitsLeft a level g st' (seen ++ [n]) + 1 ≤ visitsLeft a level g st seen := by
  obtain ⟨hn, hrest⟩ := Worklist.pop?_eq_some hpop
  have hpushed := length_step_le hinv hpop h
  have hpopped : rest.members.length + 1 = st.worklist.members.length := by
    rw [hrest]
    exact List.length_erase_add_one hn
  have hsum := sum_map_add_countP_le (l := g.edges) fun e _ =>
    changesLeft_step hl hv hinv hst hbal hpop h (origin a.direction e)
  rw [visitsLeft, visitsLeft]
  by_cases hchanged : a.same (st.producedAt a n) (st'.producedAt a n) = false
  · rw [if_pos hchanged, length_targets hg] at hpushed
    simp only [hchanged, and_true] at hsum
    omega
  · rw [if_neg hchanged] at hpushed
    omega

end

/-- Every node but one is pending at the start, and no node has changed what it produces. -/
theorem visitsLeft_start_le (hl : a.Lawful valid le) (s : Strategy) (g : Graph) :
    visitsLeft a level g (start a s g) [] ≤
      (g.nodes.length - 1) + (2 * g.method.vars.length + 1) * g.edges.length := by
  have hpending : (start a s g).worklist.members.length ≤ g.nodes.length - 1 := by
    have hnodup : (start a s g).worklist.members.Nodup := Worklist.nodup_pushAll List.nodup_nil _
    have hsub : (start a s g).worklist.members ⊆ g.nodes.erase (startNode a.direction) := by
      intro n hn
      obtain ⟨hgn, hstart⟩ := (start_invariant hl s g).pending n hn
      exact (List.mem_erase_of_ne hstart).mpr (Graph.mem_nodes.mpr hgn)
    have hlength := (List.subperm_of_subset hnodup hsub).length_le
    rwa [List.length_erase_of_mem (Graph.mem_nodes.mpr (contains_startNode g _))] at hlength
  exact Nat.add_le_add hpending (sum_map_le_mul fun _ _ => changesLeft_le ..)

/-- The visits of a run and those it may still lead to are never more than those it might have led
to at first. -/
theorem Visits.length_add_visitsLeft_le (hl : a.Lawful valid le) (hv : a.Levelled valid le level)
    (hg : g.Consistent) (h : Visits a g (start a s g) ns st) :
    ns.length + visitsLeft a level g st ns ≤ visitsLeft a level g (start a s g) [] := by
  have hall := h.induction (P := fun seen st => st.Invariant a valid le g ∧
      st.Within a level g.method ∧ (∀ n ∈ seen, st.Balanced a g n) ∧
      seen.length + visitsLeft a level g st seen ≤ visitsLeft a level g (start a s g) [])
    (by
      rintro seen st n rest st' ⟨hinv, hst, hbal, hle⟩ hpop hs
      refine ⟨step_invariant hl hg hinv hpop hs, step_within hl hv hinv hst hs,
        step_balanced hinv hpop hs hbal, ?_⟩
      have hstep := visitsLeft_step hl hv hinv hst hbal hpop hs hg
      rw [List.length_append, List.length_singleton]
      omega)
    ⟨start_invariant hl s g, start_within hl hv s g, nofun, by rw [List.length_nil, Nat.zero_add]⟩
  exact hall.2.2.2

end Solver

/-- The runs of an analysis converge, to one result under all bounds that allow the visits it
takes and under no other bound. All of them make the same visits, each as many as its bound allows,
and what nodes consume ascends from bound to bound and from visit to visit. -/
structure Analysis.Terminates (a : Analysis φ) (le : φ → φ → Prop) (g : Graph) (s : Strategy)
    (limit : Nat) : Prop where
  converges : ∃ r, r.converged = true ∧ r.iterations ≤ limit ∧
    (∀ bound : Int, r.iterations ≤ bound → solve a s bound g = .ok r) ∧
    ∀ bound : Int, bound.toNat < r.iterations →
      ∃ q, solve a s bound g = .ok q ∧ q.converged = false
  ascends : ∀ j k, j ≤ k → ∃ st st', run a g j (start a s g) = .ok st ∧
    run a g k (start a s g) = .ok st' ∧ ∀ n, le (st.consumedAt a n) (st'.consumedAt a n)
  visits : ∃ ns : List Node, ns.length ≤ limit ∧ ∀ bound : Int, ∃ st r,
    Visits a g (start a s g) (ns.take bound.toNat) st ∧ r = st.solution a g ∧
    solve a s bound g = .ok r ∧ r.iterations = (ns.take bound.toNat).length ∧
    (r.converged = true ↔ ns.length ≤ bound.toNat)
  visits_ascend : ∀ ns ns' st st', Visits a g (start a s g) ns st → Visits a g st ns' st' →
    ∀ n, le (st.consumedAt a n) (st'.consumedAt a n)

section
variable {a : Analysis φ} {valid : φ → Prop} {le : φ → φ → Prop} {level : φ → Var → Nat}
  (hv : a.Levelled valid le level) (hl : a.Lawful valid le) {g : Graph} (hg : g.Consistent)
include hv hl hg

/-- A run whose bound is the limit or above ends with nothing pending. -/
theorem Analysis.Levelled.solve_converged {s : Strategy} {bound : Int} {r : Solution φ}
    (h : solve a s bound g = .ok r)
    (hbound : (g.nodes.length - 1) + (2 * g.method.vars.length + 1) * g.edges.length ≤
      bound.toNat) : r.converged = true := by
  obtain ⟨st, hrun, rfl⟩ := exists_run h
  obtain ⟨ns, hvisits, -, hearly⟩ := exists_visits hrun
  apply State.solution_converged.mpr
  by_cases hlt : ns.length < bound.toNat
  · exact hearly hlt
  · -- the bound is used up, and so are the visits that there might have been
    have hleft := hvisits.length_add_visitsLeft_le hl hv hg
    have hfirst : visitsLeft a level g (start a s g) [] ≤ _ := visitsLeft_start_le hl s g
    apply List.eq_nil_of_length_eq_zero
    rw [visitsLeft] at hleft
    omega

/-- The run whose bound is the limit gives a result. -/
theorem Analysis.Levelled.exists_converged (s : Strategy) : ∃ (limit : Nat) (r : Solution φ),
    (g.nodes.length - 1) + (2 * g.method.vars.length + 1) * g.edges.length = limit ∧
      solve a s limit g = .ok r ∧ r.converged = true := by
  obtain ⟨r, hr⟩ := solve_ok hl hg s
    ((g.nodes.length - 1) + (2 * g.method.vars.length + 1) * g.edges.length : Nat)
  exact ⟨_, r, rfl, hr, hv.solve_converged hl hg hr (Nat.le_refl _)⟩

theorem Analysis.Levelled.terminates (s : Strategy) : a.Terminates le g s
    ((g.nodes.length - 1) + (2 * g.method.vars.length + 1) * g.edges.length) where
  converges := by
    obtain ⟨limit, r, hlimit, hr, hconv⟩ := hv.exists_converged hl hg s
    rw [hlimit]
    have hiterations : r.iterations ≤ limit := solve_iterations_le hr
    refine ⟨r, hconv, hiterations, fun bound hle => solve_of_le hr hconv (by omega), ?_⟩
    intro bound hlt
    obtain ⟨q, hq⟩ := solve_ok hl hg s bound
    have hearlier := solve_iterations_le hq
    refine ⟨q, hq, Bool.eq_false_iff.mpr fun hqconv => ?_⟩
    have hsame : solve a s limit g = .ok q := solve_of_le hq hqconv (by omega)
    obtain rfl := Except.ok.inj (hr.symm.trans hsame)
    omega
  ascends _ _ hjk := run_ascends hl hg (start_invariant hl s g) hjk
  visits := by
    obtain ⟨limit, r, hlimit, hr, hconv⟩ := hv.exists_converged hl hg s
    rw [hlimit]
    obtain ⟨st, hrun, rfl⟩ := exists_run hr
    obtain ⟨ns, hvisits, hlen, -⟩ := exists_visits hrun
    refine ⟨ns, hlen, fun bound => ?_⟩
    obtain ⟨st₁, hfirst, hrun₁, hpending⟩ :=
      hvisits.run_take (State.solution_converged.mp hconv) bound.toNat
    refine ⟨st₁, _, hfirst, rfl, ?_, hfirst.iterations_eq.trans (Nat.zero_add _),
      State.solution_converged.trans hpending⟩
    rw [solve_eq_map, hrun₁]
    rfl
  visits_ascend _ _ _ _ h h' :=
    h'.ascends hl hg (h.invariant hl hg (start_invariant hl s g))

end

theorem ConstantPropagation.levelled : analysis.Levelled Constants.Valid
    (fun f g => f.leq g = true) (fun f x => (f.get x).level) where
  level_le_two f x := (f.get x).level_le_two
  level_mono hle x := Value.level_mono (Constants.leq_iff.mp hle x)
  le_of_level hle hlevel := by
    apply Constants.leq_iff.mpr
    intro x
    rw [Value.eq_of_level (Constants.leq_iff.mp hle x) (hlevel x)]
    exact Value.leq_refl _
  transfer_congr _ _ := transfer_congr
  initial _ := rfl
  boundary h := mem_params_of_get_boundary (Value.level_ne_zero.mp h)
  merge hf _ h := (Constants.ne_undef_of_merge hf.canonical (Value.level_ne_zero.mp h)).imp
    Value.level_ne_zero.mpr Value.level_ne_zero.mpr
  transfer hf h := (get_transfer hf (Value.level_ne_zero.mp h)).imp Value.level_ne_zero.mpr .inl

theorem level_contains_ne_zero {f : LiveSet} {x : Var} :
    (f.contains x).toNat ≠ 0 ↔ f.contains x = true := by
  cases f.contains x <;> simp

theorem Liveness.levelled : analysis.Levelled (fun _ => True)
    (fun f g => f.subset g = true) (fun f x => (f.contains x).toNat) where
  level_le_two f x := (Bool.toNat_le _).trans (by decide)
  level_mono hle x := Bool.toNat_le_toNat (FactSet.subset_iff.mp hle x)
  le_of_level hle hlevel := by
    apply FactSet.subset_iff.mpr
    intro x hx
    rw [← level_contains_ne_zero, hlevel]
    exact level_contains_ne_zero.mpr hx
  transfer_congr _ _ hle _ hu hw := by
    cases hu
    cases hw
    exact liveBefore_mono hle
  initial _ := rfl
  boundary h := absurd rfl h
  merge {f t x} _ _ h := by
    have hx := level_contains_ne_zero.mp h
    rw [analysis, FactSet.contains_union, Bool.or_eq_true] at hx
    exact (hx.imp level_contains_ne_zero.mpr level_contains_ne_zero.mpr).symm
  transfer hf h := by
    cases hf
    rcases contains_liveBefore.mp (level_contains_ne_zero.mp h) with hx | ⟨hx, -⟩
    · exact .inr (.inr hx)
    · exact .inl (level_contains_ne_zero.mpr hx)

/-- Over every graph of a method and under every strategy, both analyses converge within a number
of visits that is linear in the edges of the graph and in the variables of the method. -/
theorem solve_terminates {m : Method} {g : Graph} (hg : Graph.Grown m g) (s : Strategy) :
    ConstantPropagation.analysis.Terminates (fun f g => f.leq g = true) g s
      ((g.nodes.length - 1) + (2 * m.vars.length + 1) * g.edges.length) ∧
    Liveness.analysis.Terminates (fun f g => f.subset g = true) g s
      ((g.nodes.length - 1) + (2 * m.vars.length + 1) * g.edges.length) := by
  rw [← hg.method_eq]
  exact ⟨ConstantPropagation.levelled.terminates ConstantPropagation.lawful hg.consistent s,
    Liveness.levelled.terminates Liveness.lawful hg.consistent s⟩

/-- The loop with an edge more, from a statement to itself: seven nodes, eight edges and two
variables. -/
theorem counting_terminates : ∃ g₀ g, Graph.build counting = .ok g₀ ∧
    g₀.addEdge ⟨.stmt 2, .stmt 2, .normal, none⟩ = .ok g ∧
    ConstantPropagation.analysis.Terminates (fun f g => f.leq g = true) g .rpo 46 ∧
    Liveness.analysis.Terminates (fun f g => f.subset g = true) g .rpo 46 := by
  refine ⟨_, _, rfl, rfl, ?_⟩
  exact solve_terminates
    (.addEdge (.build (m := counting) rfl) ⟨.stmt 2, .stmt 2, .normal, none⟩ rfl) .rpo

end FlowLint
