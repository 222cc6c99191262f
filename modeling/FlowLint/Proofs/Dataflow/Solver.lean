import FlowLint.Dataflow.Solver
import FlowLint.Proofs.Dataflow.Worklist
import FlowLint.Proofs.Graph.Walks

/-! # What the worklist solver computes

Facts are ordered, and merges are least upper bounds. A node that is not pending is settled: it
produces the transfer of what it consumes, and consumes at least what its sources produce. So the
facts of a run that has converged solve the inequations of the analysis, and where the transfer
respects another solution, no run ever leaves the facts below that solution.
-/
namespace FlowLint

/-- The laws an analysis has over the facts that a run may hold. Nothing is asked of the transfer
but that it succeeds on such facts; it need not be monotone. -/
structure Analysis.Lawful {φ : Type} (a : Analysis φ) (valid : φ → Prop) (le : φ → φ → Prop) :
    Prop where
  refl : ∀ f, le f f
  trans : ∀ {f g h}, le f g → le g h → le f h
  initial_le : ∀ f, le a.initial f
  initial_valid : valid a.initial
  boundary_valid : ∀ m, valid (a.boundary m)
  merge_valid : ∀ {f t}, valid f → valid t → valid (a.merge f t)
  le_merge_left : ∀ {f t}, valid f → valid t → le f (a.merge f t)
  le_merge_right : ∀ {f t}, valid f → valid t → le t (a.merge f t)
  merge_le : ∀ {f t u}, valid f → valid t → le f u → le t u → le (a.merge f t) u
  transfer_valid : ∀ s {f}, valid f → ∃ h, a.transfer s f = .ok h ∧ valid h
  same_iff : ∀ {f g}, valid f → valid g → (a.same f g = true ↔ le f g ∧ le g f)

namespace Solver
variable {φ : Type} {a : Analysis φ} {valid : φ → Prop} {le : φ → φ → Prop} {g : Graph}
  {st st' : State φ} {n k p : Node} {rest : Worklist Node} {f : φ}

theorem mem_sources_iff (hg : g.Consistent) (d : Direction) :
    p ∈ sources d g n ↔ n ∈ targets d g p := by
  cases d with
  | forward => exact Graph.mem_predecessors_iff hg
  | backward => exact (Graph.mem_predecessors_iff hg).symm

theorem contains_of_mem_targets (hg : g.Consistent) {d : Direction} (h : k ∈ targets d g n) :
    g.contains n = true ∧ g.contains k = true := by
  cases d with
  | forward => exact Graph.contains_of_mem_successors hg h
  | backward =>
    exact (Graph.contains_of_mem_successors hg ((Graph.mem_predecessors_iff hg).mp h)).symm

theorem contains_of_mem_sources (hg : g.Consistent) {d : Direction} (h : p ∈ sources d g n) :
    g.contains p = true := (contains_of_mem_targets hg ((mem_sources_iff hg d).mp h)).1

theorem contains_startNode (g : Graph) (d : Direction) : g.contains (startNode d) = true := by
  cases d <;> rfl

theorem mem_initialOrder (s : Strategy) (d : Direction) (g : Graph) (n : Node) :
    n ∈ initialOrder s d g ↔ g.contains n = true := by
  rw [← Graph.mem_nodes]
  cases s <;> cases d
  case rpo.forward => exact Graph.mem_reversePostorder rfl n
  case rpo.backward => exact Graph.mem_backwardOrder n
  all_goals simp [initialOrder]

namespace State

def consumedAt (a : Analysis φ) (st : State φ) (n : Node) : φ := st.consumed.getD n a.initial

def producedAt (a : Analysis φ) (st : State φ) (n : Node) : φ := st.produced.getD n a.initial

/-- A node produces the transfer of what it consumes, which is above what its sources produce. -/
structure Settled (a : Analysis φ) (le : φ → φ → Prop) (g : Graph) (st : State φ) (n : Node) :
    Prop where
  transfer_eq : a.transfer (g.method.stmtAt n) (st.consumedAt a n) = .ok (st.producedAt a n)
  flow_le : ∀ p ∈ sources a.direction g n, le (st.producedAt a p) (st.consumedAt a n)

/-- The invariant of a run: the start node keeps the boundary, and what is not pending is
settled. -/
structure Invariant (a : Analysis φ) (valid : φ → Prop) (le : φ → φ → Prop) (g : Graph)
    (st : State φ) : Prop where
  consumed_size : st.consumed.body.size = g.method.size
  produced_size : st.produced.body.size = g.method.size
  consumed_valid : ∀ n, valid (st.consumedAt a n)
  produced_valid : ∀ n, valid (st.producedAt a n)
  start_produced : st.producedAt a (startNode a.direction) = a.boundary g.method
  pending : ∀ n ∈ st.worklist.members, g.contains n = true ∧ n ≠ startNode a.direction
  settled : ∀ n, g.contains n = true → n ≠ startNode a.direction → n ∉ st.worklist.members →
    Settled a le g st n

end State

open State

/-- A fold of merges is the least fact above the target and all that is merged. -/
theorem foldl_merge (hl : a.Lawful valid le) (ps : List Node) {c : φ} (hc : valid c)
    (hp : ∀ n, valid (st.producedAt a n)) :
    let c' := ps.foldl (fun c p => a.merge (st.producedAt a p) c) c
    valid c' ∧ le c c' ∧ (∀ p ∈ ps, le (st.producedAt a p) c') ∧
      ∀ u, le c u → (∀ p ∈ ps, le (st.producedAt a p) u) → le c' u := by
  induction ps generalizing c with
  | nil => exact ⟨hc, hl.refl c, nofun, fun _ h _ => h⟩
  | cons p ps ih =>
    obtain ⟨hv, hle, hmem, hleast⟩ := ih (hl.merge_valid (hp p) hc)
    refine ⟨hv, hl.trans (hl.le_merge_right (hp p) hc) hle, ?_, ?_⟩
    · intro q hq
      rcases List.mem_cons.mp hq with rfl | hq
      · exact hl.trans (hl.le_merge_left (hp q) hc) hle
      · exact hmem q hq
    · intro u hcu hpu
      refine hleast u ?_ fun q hq => hpu q (List.mem_cons_of_mem _ hq)
      exact hl.merge_le (hp p) hc (hpu p List.mem_cons_self) hcu

theorem State.Invariant.consume_spec (hl : a.Lawful valid le) (hst : st.Invariant a valid le g)
    (n : Node) :
    valid (consume a g st n) ∧ le (st.consumedAt a n) (consume a g st n) ∧
      (∀ p ∈ sources a.direction g n, le (st.producedAt a p) (consume a g st n)) ∧
      ∀ u, le (st.consumedAt a n) u →
        (∀ p ∈ sources a.direction g n, le (st.producedAt a p) u) → le (consume a g st n) u :=
  foldl_merge hl _ (hst.consumed_valid n) hst.produced_valid

theorem step_eq (h : step a g st n rest = .ok st') :
    ∃ f, a.transfer (g.method.stmtAt n) (consume a g st n) = .ok f ∧
      st' = {
        consumed := st.consumed.set n (consume a g st n)
        produced := st.produced.set n f
        worklist := if !a.same (st.producedAt a n) f then
            rest.pushAll ((targets a.direction g n).filter (· ≠ startNode a.direction)) else rest
        iterations := st.iterations + 1 } := by
  cases hf : a.transfer (g.method.stmtAt n) (consume a g st n) with
  | error e => simp [step, hf] at h
  | ok f =>
    simp only [step, hf] at h
    cases h
    exact ⟨f, rfl, rfl⟩

/-- A step at a pending node makes the targets of the node pending if it changes what it
produces. -/
theorem mem_step (h : step a g st n rest = .ok st')
    (hf : a.transfer (g.method.stmtAt n) (consume a g st n) = .ok f) :
    k ∈ st'.worklist.members ↔ k ∈ rest.members ∨ a.same (st.producedAt a n) f = false ∧
      k ∈ targets a.direction g n ∧ k ≠ startNode a.direction := by
  obtain ⟨f', hf', rfl⟩ := step_eq h
  obtain rfl : f = f' := Except.ok.inj (hf.symm.trans hf')
  by_cases hsame : a.same (st.producedAt a n) f = true
  · simp [hsame]
  · simp [hsame, Worklist.mem_pushAll]

theorem State.Invariant.step_facts (hst : st.Invariant a valid le g) (hgn : g.contains n = true)
    (h : step a g st n rest = .ok st') :
    ∃ f, a.transfer (g.method.stmtAt n) (consume a g st n) = .ok f ∧
      (∀ k, st'.consumedAt a k = if n = k then consume a g st n else st.consumedAt a k) ∧
      ∀ k, st'.producedAt a k = if n = k then f else st.producedAt a k := by
  obtain ⟨f, hf, rfl⟩ := step_eq h
  exact ⟨f, hf, fun k => NodeMap.getD_set hst.consumed_size hgn _ _,
    fun k => NodeMap.getD_set hst.produced_size hgn _ _⟩

section
variable (hl : a.Lawful valid le) (hg : g.Consistent) (hst : st.Invariant a valid le g)
  (hpop : st.worklist.pop? = some (n, rest)) (h : step a g st n rest = .ok st')
include hl hg hst hpop h

/-- What is not pending after a step is settled: the node itself, and every other node that does
not consume a fact that has changed. -/
theorem step_settled (hgk : g.contains k = true) (hks : k ≠ startNode a.direction)
    (hnot : k ∉ st'.worklist.members) : Settled a le g st' k := by
  obtain ⟨hn, hrest⟩ := Worklist.pop?_eq_some hpop
  obtain ⟨hcv, -, hflow, -⟩ := hst.consume_spec hl n
  obtain ⟨f, hf, hconsumed, hproduced⟩ := hst.step_facts (hst.pending n hn).1 h
  obtain ⟨f', hf', hfv⟩ := hl.transfer_valid (g.method.stmtAt n) hcv
  obtain rfl : f = f' := Except.ok.inj (hf.symm.trans hf')
  rw [mem_step h hf, not_or] at hnot
  obtain ⟨hnot, hunchanged⟩ := hnot
  -- a source of the node that has changed would have made it pending
  have hbelow : ∀ p ∈ sources a.direction g k, le (st'.producedAt a p) (st.producedAt a p) := by
    intro p hp
    rw [hproduced]
    split
    · next he =>
      subst he
      have hsame : a.same (st.producedAt a n) f = true := by
        apply Bool.of_not_eq_false
        intro hne
        exact hunchanged ⟨hne, (mem_sources_iff hg _).mp hp, hks⟩
      exact ((hl.same_iff (hst.produced_valid n) hfv).mp hsame).2
    · exact hl.refl _
  by_cases hkn : n = k
  · subst hkn
    constructor
    · rw [hconsumed, hproduced, if_pos rfl, if_pos rfl]
      exact hf
    · intro p hp
      rw [hconsumed, if_pos rfl]
      exact hl.trans (hbelow p hp) (hflow p hp)
  · have hold : k ∉ st.worklist.members := by
      intro hk
      apply hnot
      rw [hrest]
      exact (List.mem_erase_of_ne fun he => hkn he.symm).mpr hk
    have hset := hst.settled k hgk hks hold
    constructor
    · rw [hconsumed, hproduced, if_neg hkn, if_neg hkn]
      exact hset.transfer_eq
    · intro p hp
      rw [hconsumed, if_neg hkn]
      exact hl.trans (hbelow p hp) (hset.flow_le p hp)

theorem step_invariant : st'.Invariant a valid le g := by
  obtain ⟨hn, hrest⟩ := Worklist.pop?_eq_some hpop
  obtain ⟨hgn, hstart⟩ := hst.pending n hn
  obtain ⟨hcv, -⟩ := hst.consume_spec hl n
  obtain ⟨f, hf, hconsumed, hproduced⟩ := hst.step_facts hgn h
  obtain ⟨f', hf', hfv⟩ := hl.transfer_valid (g.method.stmtAt n) hcv
  obtain rfl : f = f' := Except.ok.inj (hf.symm.trans hf')
  constructor
  · obtain ⟨_, -, rfl⟩ := step_eq h
    exact (NodeMap.size_set ..).trans hst.consumed_size
  · obtain ⟨_, -, rfl⟩ := step_eq h
    exact (NodeMap.size_set ..).trans hst.produced_size
  · intro k
    rw [hconsumed]
    split
    · exact hcv
    · exact hst.consumed_valid k
  · intro k
    rw [hproduced]
    split
    · exact hfv
    · exact hst.produced_valid k
  · rw [hproduced, if_neg hstart]
    exact hst.start_produced
  · intro k hk
    rcases (mem_step h hf).mp hk with hk | ⟨-, hk, hks⟩
    · rw [hrest] at hk
      exact hst.pending k (List.mem_of_mem_erase hk)
    · exact ⟨(contains_of_mem_targets hg hk).2, hks⟩
  · exact fun k hgk hks hnot => step_settled hl hg hst hpop h hgk hks hnot

end

theorem start_consumedAt (s : Strategy) (g : Graph) (n : Node) :
    (start a s g).consumedAt a n = a.initial := NodeMap.getD_replicate g.method.size a.initial n

theorem start_producedAt (s : Strategy) (g : Graph) (n : Node) :
    (start a s g).producedAt a n =
      if startNode a.direction = n then a.boundary g.method else a.initial := by
  have h : (start a s g).producedAt a n = if startNode a.direction = n then a.boundary g.method
      else (NodeMap.replicate g.method.size a.initial).getD n a.initial :=
    NodeMap.getD_set Array.size_replicate (contains_startNode g _) _ _
  rw [h, NodeMap.getD_replicate]

theorem start_invariant (hl : a.Lawful valid le) (s : Strategy) (g : Graph) :
    (start a s g).Invariant a valid le g := by
  have hsize : (NodeMap.replicate g.method.size a.initial).body.size = g.method.size :=
    Array.size_replicate
  have hmem : ∀ n, n ∈ (start a s g).worklist.members ↔
      g.contains n = true ∧ n ≠ startNode a.direction := by
    intro n
    have h : n ∈ (start a s g).worklist.members ↔ n ∈ ([] : List Node) ∨
        n ∈ (initialOrder s a.direction g).filter (· ≠ startNode a.direction) :=
      Worklist.mem_pushAll
    rw [h, List.mem_filter, mem_initialOrder]
    simp
  constructor
  · exact hsize
  · exact (NodeMap.size_set ..).trans hsize
  · intro n
    rw [start_consumedAt]
    exact hl.initial_valid
  · intro n
    rw [start_producedAt]
    split
    · exact hl.boundary_valid _
    · exact hl.initial_valid
  · rw [start_producedAt, if_pos rfl]
  · exact fun n hn => (hmem n).mp hn
  · exact fun n hgn hns hnot => absurd ((hmem n).mpr ⟨hgn, hns⟩) hnot

/-- A run comes to an end if no step at a pending node fails. -/
theorem run_total {P : State φ → Prop}
    (hstep : ∀ st n rest, P st → st.worklist.pop? = some (n, rest) →
      ∃ st', step a g st n rest = .ok st' ∧ P st')
    (bound : Nat) (hst : P st) : ∃ st', run a g bound st = .ok st' := by
  induction bound generalizing st with
  | zero => exact ⟨st, rfl⟩
  | succ bound ih =>
    rw [run]
    cases hpop : st.worklist.pop? with
    | none => exact ⟨st, rfl⟩
    | some p =>
      obtain ⟨n, rest⟩ := p
      obtain ⟨st₁, hs, hst₁⟩ := hstep st n rest hst hpop
      simp only [hs]
      exact ih hst₁

theorem exists_step (hl : a.Lawful valid le) (hst : st.Invariant a valid le g) (n : Node)
    (rest : Worklist Node) : ∃ st', step a g st n rest = .ok st' := by
  obtain ⟨hcv, -⟩ := hst.consume_spec hl n
  obtain ⟨f, hf, -⟩ := hl.transfer_valid (g.method.stmtAt n) hcv
  simp only [step, hf]
  exact ⟨_, rfl⟩

/-- No step fails, so a run comes to an end. -/
theorem run_ok (hl : a.Lawful valid le) (hg : g.Consistent) (bound : Nat)
    (hst : st.Invariant a valid le g) : ∃ st', run a g bound st = .ok st' := by
  refine run_total (P := fun st => st.Invariant a valid le g) ?_ bound hst
  intro st n rest hst hpop
  obtain ⟨st', hs⟩ := exists_step hl hst n rest
  exact ⟨st', hs, step_invariant hl hg hst hpop hs⟩

/-- What every step at a pending node keeps is kept by a run. -/
theorem run_induction {P : State φ → Prop}
    (hstep : ∀ st n rest st', P st → st.worklist.pop? = some (n, rest) →
      step a g st n rest = .ok st' → P st')
    {bound : Nat} (h : run a g bound st = .ok st') (hst : P st) : P st' := by
  induction bound generalizing st with
  | zero =>
    cases h
    exact hst
  | succ bound ih =>
    rw [run] at h
    cases hpop : st.worklist.pop? with
    | none =>
      rw [hpop] at h
      cases h
      exact hst
    | some p =>
      obtain ⟨n, rest⟩ := p
      simp only [hpop] at h
      cases hs : step a g st n rest with
      | error e =>
        rw [hs] at h
        cases h
      | ok st₁ =>
        rw [hs] at h
        exact ih h (hstep st n rest st₁ hst hpop hs)

end Solver

end FlowLint
