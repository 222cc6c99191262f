import FlowLint.Proofs.Dataflow.Solution

/-! # The visits of a run

A run is a sequence of visits to pending nodes, as many as its bound allows or until nothing is
pending. So a run that has converged does not depend on its bound. What a node consumes ascends
from visit to visit, and a node that has been visited produces the transfer of what it consumes. A
property of facts that merges and transfers pass on is one of all facts after any visits, whatever
the edges of the graph.
-/
namespace FlowLint.Solver
variable {φ : Type} {a : Analysis φ} {valid : φ → Prop} {le : φ → φ → Prop} {g : Graph}
  {s : Strategy} {st st' : State φ} {n k : Node} {rest : Worklist Node} {ns seen : List Node}
  {bound bound' : Nat}

/-- Visits to the given nodes, one after the other, lead from a state to another one. -/
inductive Visits (a : Analysis φ) (g : Graph) : State φ → List Node → State φ → Prop
  | nil (st : State φ) : Visits a g st [] st
  | cons {st st₁ st₂ : State φ} {n : Node} {rest : Worklist Node} {ns : List Node}
    (hpop : st.worklist.pop? = some (n, rest)) (hs : step a g st n rest = .ok st₁)
    (h : Visits a g st₁ ns st₂) : Visits a g st (n :: ns) st₂

/-- What every visit keeps, of a state and the nodes that have been visited. -/
theorem Visits.induction {P : List Node → State φ → Prop}
    (hstep : ∀ seen st n rest st', P seen st → st.worklist.pop? = some (n, rest) →
      step a g st n rest = .ok st' → P (seen ++ [n]) st')
    (h : Visits a g st ns st') (hst : P [] st) : P ns st' := by
  have hfrom : ∀ {st ns st'}, Visits a g st ns st' → ∀ seen, P seen st → P (seen ++ ns) st' := by
    intro st ns st' h
    induction h with
    | nil st =>
      intro seen hst
      rwa [List.append_nil]
    | cons hpop hs _ ih =>
      intro seen hst
      rw [List.append_cons]
      exact ih _ (hstep _ _ _ _ _ hst hpop hs)
  exact hfrom h [] hst

theorem Visits.iterations_eq (h : Visits a g st ns st') :
    st'.iterations = st.iterations + ns.length := by
  induction h with
  | nil st => rfl
  | cons hpop hs _ ih =>
    obtain ⟨_, -, rfl⟩ := step_eq hs
    rw [ih, List.length_cons, Nat.add_right_comm, Nat.add_assoc]

theorem pop?_eq_none (h : st.worklist.pop? = none) : st.worklist.members = [] :=
  Worklist.next?_eq_none_iff.mp (Option.map_eq_none_iff.mp h)

/-- A run makes as many visits as its bound allows, fewer only when nothing is pending. -/
theorem exists_visits (h : run a g bound st = .ok st') : ∃ ns, Visits a g st ns st' ∧
    ns.length ≤ bound ∧ (ns.length < bound → st'.worklist.members = []) := by
  induction bound generalizing st with
  | zero =>
    cases h
    exact ⟨[], .nil _, Nat.le_refl 0, nofun⟩
  | succ bound ih =>
    rw [run] at h
    cases hpop : st.worklist.pop? with
    | none =>
      rw [hpop] at h
      cases h
      exact ⟨[], .nil _, Nat.zero_le _, fun _ => pop?_eq_none hpop⟩
    | some p =>
      obtain ⟨n, rest⟩ := p
      simp only [hpop] at h
      cases hs : step a g st n rest with
      | error e =>
        rw [hs] at h
        cases h
      | ok st₁ =>
        rw [hs] at h
        obtain ⟨ns, hvisits, hlen, hempty⟩ := ih h
        exact ⟨n :: ns, .cons hpop hs hvisits, Nat.succ_le_succ hlen,
          fun hlt => hempty (Nat.lt_of_succ_lt_succ hlt)⟩

theorem run_of_empty (bound : Nat) (h : st.worklist.members = []) :
    run a g bound st = .ok st := by
  cases bound with
  | zero => rfl
  | succ bound =>
    have hpop : st.worklist.pop? = none :=
      Option.map_eq_none_iff.mpr (Worklist.next?_eq_none_iff.mpr h)
    rw [run, hpop]

theorem Visits.run_eq (h : Visits a g st ns st') (hlen : ns.length ≤ bound)
    (hempty : ns.length < bound → st'.worklist.members = []) : run a g bound st = .ok st' := by
  induction h generalizing bound with
  | nil st =>
    cases bound with
    | zero => rfl
    | succ bound => exact run_of_empty _ (hempty (Nat.zero_lt_succ bound))
  | cons hpop hs _ ih =>
    cases bound with
    | zero => cases hlen
    | succ bound =>
      rw [run, hpop]
      simp only [hs]
      exact ih (Nat.le_of_succ_le_succ hlen) fun hlt => hempty (Nat.succ_lt_succ hlt)

/-- Visits pass through a state after any number of them. -/
theorem Visits.split (h : Visits a g st ns st') (k : Nat) :
    ∃ st₁, Visits a g st (ns.take k) st₁ ∧ Visits a g st₁ (ns.drop k) st' := by
  induction h generalizing k with
  | nil st =>
    rw [List.take_nil, List.drop_nil]
    exact ⟨st, .nil st, .nil st⟩
  | cons hpop hs h ih =>
    cases k with
    | zero => exact ⟨_, .nil _, .cons hpop hs h⟩
    | succ k =>
      obtain ⟨st₁, hfirst, hlast⟩ := ih k
      exact ⟨st₁, .cons hpop hs hfirst, hlast⟩

/-- Of visits that leave nothing pending a run makes as many as its bound allows, and it leaves
nothing pending exactly if it makes all of them. -/
theorem Visits.run_take (h : Visits a g st ns st') (hempty : st'.worklist.members = [])
    (bound : Nat) : ∃ st₁, Visits a g st (ns.take bound) st₁ ∧ run a g bound st = .ok st₁ ∧
      (st₁.worklist.members = [] ↔ ns.length ≤ bound) := by
  obtain ⟨st₁, hfirst, hlast⟩ := h.split bound
  have hpending : st₁.worklist.members = [] ↔ ns.length ≤ bound := by
    rw [← List.drop_eq_nil_iff]
    generalize ns.drop bound = ms at hlast
    cases hlast with
    | nil => exact iff_of_true hempty rfl
    | cons hpop _ _ =>
      have hmem := (Worklist.pop?_eq_some hpop).1
      exact iff_of_false (List.ne_nil_of_mem hmem) (List.cons_ne_nil _ _)
  refine ⟨st₁, hfirst, hfirst.run_eq (List.length_take_le bound ns) fun hlt => ?_, hpending⟩
  rw [hpending]
  rw [List.length_take] at hlt
  omega

/-- A run that ends with nothing pending ends alike under every bound that allows its visits. -/
theorem run_of_le (h : run a g bound st = .ok st') (hempty : st'.worklist.members = [])
    (hle : st'.iterations ≤ st.iterations + bound') : run a g bound' st = .ok st' := by
  obtain ⟨ns, hvisits, -, -⟩ := exists_visits h
  rw [hvisits.iterations_eq] at hle
  exact hvisits.run_eq (Nat.le_of_add_le_add_left hle) fun _ => hempty

/-- A run under a larger bound goes on where the run under the smaller one stops. -/
theorem run_add (a : Analysis φ) (g : Graph) (j k : Nat) (st : State φ) :
    run a g (j + k) st = run a g j st >>= run a g k := by
  induction j generalizing st with
  | zero =>
    rw [Nat.zero_add]
    rfl
  | succ j ih =>
    rw [Nat.add_right_comm, run, run]
    cases hpop : st.worklist.pop? with
    | none => exact (run_of_empty k (pop?_eq_none hpop)).symm
    | some p =>
      obtain ⟨n, rest⟩ := p
      dsimp only
      cases step a g st n rest with
      | error e => rfl
      | ok st₁ => exact ih st₁

/-- The solution that a state amounts to. -/
def State.solution (a : Analysis φ) (g : Graph) (st : State φ) : Solution φ where
  method := g.method
  direction := a.direction
  consumed := st.consumed
  produced := st.produced
  initial := a.initial
  iterations := st.iterations
  converged := st.worklist.isEmpty

theorem solve_eq_map (a : Analysis φ) (s : Strategy) (bound : Int) (g : Graph) :
    solve a s bound g = (run a g bound.toNat (start a s g)).map (State.solution a g) := by
  rw [solve]
  cases run a g bound.toNat (start a s g) <;> rfl

theorem State.solution_converged : (st.solution a g).converged = true ↔
    st.worklist.members = [] := List.isEmpty_iff

theorem exists_run {bound : Int} {r : Solution φ} (h : solve a s bound g = .ok r) :
    ∃ st, run a g bound.toNat (start a s g) = .ok st ∧ r = st.solution a g := by
  rw [solve_eq_map] at h
  cases hrun : run a g bound.toNat (start a s g) with
  | error e =>
    rw [hrun] at h
    cases h
  | ok st =>
    rw [hrun] at h
    cases h
    exact ⟨st, rfl, rfl⟩

theorem solve_iterations_le {bound : Int} {r : Solution φ} (h : solve a s bound g = .ok r) :
    r.iterations ≤ bound.toNat := by
  obtain ⟨st, hrun, rfl⟩ := exists_run h
  obtain ⟨ns, hvisits, hlen, -⟩ := exists_visits hrun
  exact Nat.le_trans (Nat.le_of_eq (hvisits.iterations_eq.trans (Nat.zero_add _))) hlen

/-- A result that has converged is the result under every bound that allows its visits. -/
theorem solve_of_le {bound bound' : Int} {r : Solution φ} (h : solve a s bound g = .ok r)
    (hr : r.converged = true) (hle : r.iterations ≤ bound'.toNat) :
    solve a s bound' g = .ok r := by
  obtain ⟨st, hrun, rfl⟩ := exists_run h
  rw [solve_eq_map, run_of_le hrun (State.solution_converged.mp hr)]
  · rfl
  · exact Nat.le_trans hle (Nat.le_add_left _ _)

/-- A node produces the transfer of what it consumes. -/
def State.Balanced (a : Analysis φ) (g : Graph) (st : State φ) (n : Node) : Prop :=
  a.transfer (g.method.stmtAt n) (st.consumedAt a n) = .ok (st.producedAt a n)

/-- The facts after a visit: those of the node are new, and all others are as they were. -/
theorem State.Invariant.visit_facts (hst : st.Invariant a valid le g)
    (hpop : st.worklist.pop? = some (n, rest)) (h : step a g st n rest = .ok st') :
    ∃ f, a.transfer (g.method.stmtAt n) (consume a g st n) = .ok f ∧
      (∀ k, st'.consumedAt a k = if n = k then consume a g st n else st.consumedAt a k) ∧
      ∀ k, st'.producedAt a k = if n = k then f else st.producedAt a k :=
  hst.step_facts (hst.pending n (Worklist.pop?_eq_some hpop).1).1 h

theorem step_balanced (hst : st.Invariant a valid le g)
    (hpop : st.worklist.pop? = some (n, rest)) (h : step a g st n rest = .ok st')
    (hseen : ∀ k ∈ seen, st.Balanced a g k) : ∀ k ∈ seen ++ [n], st'.Balanced a g k := by
  obtain ⟨f, hf, hconsumed, hproduced⟩ := hst.visit_facts hpop h
  intro k hk
  rw [State.Balanced, hconsumed, hproduced]
  by_cases hkn : n = k
  · subst hkn
    rw [if_pos rfl, if_pos rfl]
    exact hf
  · rw [if_neg hkn, if_neg hkn]
    have hk := (List.mem_append.mp hk).resolve_right fun h => hkn (List.mem_singleton.mp h).symm
    exact hseen k hk

/-- What a node consumes ascends when a node is visited. -/
theorem step_ascends (hl : a.Lawful valid le) (hst : st.Invariant a valid le g)
    (hpop : st.worklist.pop? = some (n, rest)) (h : step a g st n rest = .ok st') (k : Node) :
    le (st.consumedAt a k) (st'.consumedAt a k) := by
  obtain ⟨-, -, hconsumed, -⟩ := hst.visit_facts hpop h
  rw [hconsumed]
  split
  · next hkn => exact hkn ▸ (hst.consume_spec hl n).2.1
  · exact hl.refl _

section
variable (hl : a.Lawful valid le) (hg : g.Consistent)
include hl hg

theorem Visits.invariant (h : Visits a g st ns st') (hst : st.Invariant a valid le g) :
    st'.Invariant a valid le g :=
  h.induction (P := fun _ st => st.Invariant a valid le g)
    (fun _ _ _ _ _ hst hpop hs => step_invariant hl hg hst hpop hs) hst

theorem Visits.balanced (h : Visits a g st ns st') (hst : st.Invariant a valid le g) :
    ∀ n ∈ ns, st'.Balanced a g n := by
  have hboth := h.induction
    (P := fun seen st => st.Invariant a valid le g ∧ ∀ n ∈ seen, st.Balanced a g n)
    (fun _ _ _ _ _ hst hpop hs =>
      ⟨step_invariant hl hg hst.1 hpop hs, step_balanced hst.1 hpop hs hst.2⟩) ⟨hst, nofun⟩
  exact hboth.2

theorem Visits.ascends (h : Visits a g st ns st') (hst : st.Invariant a valid le g) (k : Node) :
    le (st.consumedAt a k) (st'.consumedAt a k) := by
  induction h with
  | nil st => exact hl.refl _
  | cons hpop hs _ ih =>
    exact hl.trans (step_ascends hl hst hpop hs k) (ih (step_invariant hl hg hst hpop hs))

/-- What a node consumes after a run is below what it consumes after a run with a larger bound. -/
theorem run_ascends (hst : st.Invariant a valid le g) (hle : bound ≤ bound') :
    ∃ st₁ st₂, run a g bound st = .ok st₁ ∧ run a g bound' st = .ok st₂ ∧
      ∀ n, le (st₁.consumedAt a n) (st₂.consumedAt a n) := by
  obtain ⟨k, rfl⟩ := Nat.exists_eq_add_of_le hle
  obtain ⟨st₁, h₁⟩ := run_ok hl hg bound hst
  obtain ⟨ns, hvisits, -⟩ := exists_visits h₁
  have hst₁ := hvisits.invariant hl hg hst
  obtain ⟨st₂, h₂⟩ := run_ok hl hg k hst₁
  obtain ⟨ns', hvisits', -⟩ := exists_visits h₂
  refine ⟨st₁, st₂, h₁, ?_, hvisits'.ascends hl hg hst₁⟩
  rw [run_add, h₁]
  exact h₂

/-- What a result says that nodes consume is below what a result under a larger bound says. -/
theorem solve_ascends {bound bound' : Int} {r r' : Solution φ} (hle : bound ≤ bound')
    (h : solve a s bound g = .ok r) (h' : solve a s bound' g = .ok r') (n : Node) :
    le (r.consumedAt n) (r'.consumedAt n) := by
  obtain ⟨st, hrun, rfl⟩ := exists_run h
  obtain ⟨st', hrun', rfl⟩ := exists_run h'
  obtain ⟨st₁, st₂, h₁, h₂, hascends⟩ :=
    run_ascends hl hg (start_invariant hl s g) (Int.toNat_le_toNat hle)
  obtain rfl := Except.ok.inj (hrun.symm.trans h₁)
  obtain rfl := Except.ok.inj (hrun'.symm.trans h₂)
  exact hascends n

end

end FlowLint.Solver

namespace FlowLint

/-- A property that the first facts of an analysis have on a method, and that merges and transfers
pass on. Transfers do not fail on facts that have it. -/
structure Analysis.Keeps {φ : Type} (a : Analysis φ) (m : Method) (P : φ → Prop) : Prop where
  initial : P a.initial
  boundary : P (a.boundary m)
  merge : ∀ {f t}, P f → P t → P (a.merge f t)
  transfer : ∀ n {f}, P f → ∃ h, a.transfer (m.stmtAt n) f = .ok h ∧ P h

namespace Solver
variable {φ : Type} {a : Analysis φ} {g : Graph} {s : Strategy} {P : φ → Prop} {st st' : State φ}
  {n : Node} {rest : Worklist Node} {ns : List Node}

def State.All (a : Analysis φ) (P : φ → Prop) (st : State φ) : Prop :=
  ∀ n, P (st.consumedAt a n) ∧ P (st.producedAt a n)

section
variable (hP : a.Keeps g.method P)
include hP

theorem start_all (s : Strategy) : (start a s g).All a P := by
  intro n
  rw [start_consumedAt, start_producedAt]
  refine ⟨hP.initial, ?_⟩
  split
  · exact hP.boundary
  · exact hP.initial

theorem consume_all (hst : st.All a P) (n : Node) : P (consume a g st n) := by
  rw [consume]
  refine List.foldlRecOn _ _ (hst n).1 fun c hc p _ => ?_
  exact hP.merge (hst p).2 hc

/-- A step does not fail, and all facts have the property after it. -/
theorem step_all (hst : st.All a P) (n : Node) (rest : Worklist Node) :
    ∃ st', step a g st n rest = .ok st' ∧ st'.All a P := by
  have hc := consume_all hP hst n
  obtain ⟨f, hf, hPf⟩ := hP.transfer n hc
  simp only [step, hf]
  refine ⟨_, rfl, fun k => ⟨?_, ?_⟩⟩
  · exact NodeMap.forall_getD_set hc (fun k => (hst k).1) n k
  · exact NodeMap.forall_getD_set hPf (fun k => (hst k).2) n k

theorem Visits.all (h : Visits a g st ns st') (hst : st.All a P) : st'.All a P := by
  refine h.induction (P := fun _ st => st.All a P) (fun _ st n rest st' hst _ hs => ?_) hst
  obtain ⟨st₁, hs₁, hst₁⟩ := step_all hP hst n rest
  exact Except.ok.inj (hs₁.symm.trans hs) ▸ hst₁

end

theorem exists_visits_solve (hP : a.Keeps g.method P) (s : Strategy) (bound : Int) :
    ∃ ns st, Visits a g (start a s g) ns st ∧ ns.length ≤ bound.toNat ∧
      solve a s bound g = .ok (st.solution a g) := by
  obtain ⟨st, hrun⟩ := run_total (P := State.All a P)
    (fun st n rest hst _ => step_all hP hst n rest) bound.toNat (start_all hP s)
  obtain ⟨ns, hvisits, hlen, -⟩ := exists_visits hrun
  refine ⟨ns, st, hvisits, hlen, ?_⟩
  rw [solve_eq_map, hrun]
  rfl

end Solver

end FlowLint
