import FlowLint.Proofs.Dataflow.Visits
import FlowLint.Proofs.Pipeline.Detection

/-! # Solver runs that stop early

If the solver runs of a plan have converged then nothing changes under larger bounds. If liveness
has stopped early then reads are missing, and statements are found dead that are not under larger
bounds. If constants have stopped early then values are missing, and a branch may be pruned that is
not under larger bounds.
-/
namespace FlowLint

/-- Options of the same strategy with a bound that is at least as large. -/
structure Options.RaisedTo (o o' : Options) : Prop where
  strategy : o.strategy = o'.strategy
  maxIterations : o.maxIterations ≤ o'.maxIterations

theorem Options.RaisedTo.solve_eq {φ : Type} {a : Analysis φ} {g : Graph} {r r' : Solution φ}
    {o o' : Options} (ho : o.RaisedTo o') (h : solve a o.strategy o.maxIterations g = .ok r)
    (h' : solve a o'.strategy o'.maxIterations g = .ok r') (hr : r.converged = true) : r' = r := by
  have hle : r.iterations ≤ (o'.maxIterations : Int).toNat :=
    Nat.le_trans (Solver.solve_iterations_le h) ho.maxIterations
  have hsame := Solver.solve_of_le h hr hle
  rw [ho.strategy] at hsame
  exact Except.ok.inj (h'.symm.trans hsame)

/-- When the bounds of a plan are raised, the same code is dead if both runs had converged, and no
code is dead that was not if constants had. If liveness had converged and the constants pruned no
edge that they keep under the raised bound, then all dead code with a source line is dead again. -/
theorem deadCode_raised {m : Method} {g : Graph} (hb : Graph.build m = .ok g)
    {o o' : Task → Options} (ho : ∀ t, (o t).RaisedTo (o' t)) : ∃ r q dead r' q' dead',
    Plan.Finds o m g r q dead ∧ Plan.Finds o' m g r' q' dead' ∧
    (r.converged = true → q.converged = true → dead = dead') ∧
    (r.converged = true → ∀ i ∈ dead', i ∈ dead) ∧
    (q.converged = true → g.PrunesLess r r' →
      ∀ i ∈ dead, 0 < (m.stmtAt (.stmt i)).line → i ∈ dead') := by
  obtain ⟨-, hg, -⟩ := Graph.build_spec hb
  obtain ⟨r, q, nodes, hr, hn, hfinds⟩ := exists_finds hb o
  obtain ⟨r', q', nodes', hr', hn', hfinds'⟩ := exists_finds hb o'
  have hconstants : r.converged = true → nodes' = nodes := by
    intro hconv
    obtain rfl := (ho .constants).solve_eq hfinds.constants hfinds'.constants hconv
    exact Except.ok.inj (hn'.symm.trans hn)
  have hliveness := (ho .liveness).solve_eq hfinds.liveness hfinds'.liveness
  refine ⟨r, q, _, r', q', _, hfinds, hfinds', ?_, ?_, ?_⟩
  · intro hrc hqc
    rw [hconstants hrc, hliveness hqc]
  · intro hrc i hi
    rw [hconstants hrc] at hi
    -- what liveness says so far it still says under the raised bound
    have hlive := hfinds'.liveness
    rw [← (ho .liveness).strategy] at hlive
    refine Method.mem_deadCode_of_live (fun n => ?_) hi
    have hascends := Solver.solve_ascends Liveness.lawful hg
      (Int.ofNat_le.mpr (ho .liveness).maxIterations) hfinds.liveness hlive n
    rwa [Solution.after_backward (solve_eq hfinds.liveness).1,
      Solution.after_backward (solve_eq hlive).1]
  · intro hqc hless i hi hline
    rw [hliveness hqc]
    exact Method.mem_deadCode_of_nodes (Graph.feasible_subset hg hr hr' hless hn hn') hi hline

/-- Options with a strategy and perhaps a bound. -/
def Options.limited (s : Strategy) (bound? : Option { n : Nat // 0 < n }) : Options where
  strategy? := some s
  maxIterations? := bound?.map (·.1)
  maxIterations_pos := by
    rintro _ h
    obtain ⟨bound, -, rfl⟩ := Option.map_eq_some_iff.mp h
    exact bound.2

/-- Options with bounds for constants and for liveness. -/
def limitedTo (s : Strategy) (constants liveness : { n : Nat // 0 < n }) : Task → Options
  | .constants => .limited s (some constants)
  | .liveness => .limited s (some liveness)
  | .graph | .deadCode => .limited s none

theorem limitedTo_raisedTo (s : Strategy) {c c' l l' : { n : Nat // 0 < n }}
    (hc : c.1 ≤ c'.1) (hl : l.1 ≤ l'.1) (t : Task) :
    (limitedTo s c l t).RaisedTo (limitedTo s c' l' t) := by
  cases t with
  | constants => exact ⟨rfl, hc⟩
  | liveness => exact ⟨rfl, hl⟩
  | graph | deadCode => exact ⟨rfl, Nat.le_refl _⟩

/-- A copy that is never read, before a branch that stays open. -/
def discarded : Method where
  name := "discarded"
  file := "discarded.ir"
  params := [⟨"p", "p", .prim .int⟩]
  body := [
    ⟨1, .assign (.var ⟨"y", "y", .prim .int⟩) (.var ⟨"p", "p", .prim .int⟩)⟩,
    ⟨2, .branch (.bin .eq (.var ⟨"p", "p", .prim .int⟩) (.lit 0)) (some 3)⟩,
    ⟨3, .ret (some (.var ⟨"p", "p", .prim .int⟩))⟩,
    ⟨4, .ret (some (.lit 0))⟩]
  targets_lt := by decide

/-- Bounds that both runs stay within, and one that stops the constants before they know anything of
the branch. -/
theorem discarded_deadCode_raised : ∃ g, Graph.build discarded = .ok g ∧
    (∃ r q dead r' q' dead',
      Plan.Finds (limitedTo .fifo ⟨50, by decide⟩ ⟨50, by decide⟩) discarded g r q dead ∧
      Plan.Finds (limitedTo .fifo ⟨100, by decide⟩ ⟨100, by decide⟩) discarded g r' q' dead' ∧
      r.converged = true ∧ q.converged = true ∧ dead = dead' ∧ ∀ i ∈ dead', i ∈ dead) ∧
    ∃ r q dead r' q' dead',
      Plan.Finds (limitedTo .fifo ⟨1, by decide⟩ ⟨50, by decide⟩) discarded g r q dead ∧
      Plan.Finds (limitedTo .fifo ⟨100, by decide⟩ ⟨100, by decide⟩) discarded g r' q' dead' ∧
      r.converged = false ∧ q.converged = true ∧ g.PrunesLess r r' ∧
      ∀ i ∈ dead, 0 < (discarded.stmtAt (.stmt i)).line → i ∈ dead' := by
  refine ⟨_, rfl, ?_, ?_⟩
  · have ho : ∀ t, (limitedTo .fifo ⟨50, by decide⟩ ⟨50, by decide⟩ t).RaisedTo
        (limitedTo .fifo ⟨100, by decide⟩ ⟨100, by decide⟩ t) :=
      limitedTo_raisedTo .fifo (by decide) (by decide)
    obtain ⟨r, q, dead, r', q', dead', h, h', hsame, hmore, -⟩ :=
      deadCode_raised (m := discarded) rfl ho
    have hr : r.converged = true := by
      cases h.constants
      rfl
    have hq : q.converged = true := by
      cases h.liveness
      rfl
    exact ⟨r, q, dead, r', q', dead', h, h', hr, hq, hsame hr hq, hmore hr⟩
  · have ho : ∀ t, (limitedTo .fifo ⟨1, by decide⟩ ⟨50, by decide⟩ t).RaisedTo
        (limitedTo .fifo ⟨100, by decide⟩ ⟨100, by decide⟩ t) :=
      limitedTo_raisedTo .fifo (by decide) (by decide)
    obtain ⟨r, q, dead, r', q', dead', h, h', -, -, hagain⟩ :=
      deadCode_raised (m := discarded) rfl ho
    have hr : r.converged = false := by
      cases h.constants
      rfl
    have hq : q.converged = true := by
      cases h.liveness
      rfl
    refine ⟨r, q, dead, r', q', dead', h, h', hr, hq, ?hless, hagain hq ?hless⟩
    cases h.constants
    cases h'.constants
    decide

/-- Whether constants and liveness converge under options. -/
def convergedWith (m : Method) (o : Task → Options) : Option (Bool × Bool) := do
  let g ← (Graph.build m).toOption
  let r ← (solve ConstantPropagation.analysis (o .constants).strategy (o .constants).maxIterations
    g).toOption
  let q ← (solve Liveness.analysis (o .liveness).strategy (o .liveness).maxIterations g).toOption
  return (r.converged, q.converged)

def deadWith (m : Method) (o : Task → Options) : Option (List Nat) :=
  ((Plan.withOptions o).deadCode m .empty).toOption

/-- A counter that starts at zero and is tested for zero again after each increment. -/
def recounted : Method where
  name := "recounted"
  file := "recounted.ir"
  params := [⟨"p", "p", .prim .int⟩]
  body := [
    ⟨1, .assign (.var ⟨"x", "x", .prim .int⟩) (.lit 0)⟩,
    ⟨2, .branch (.bin .eq (.var ⟨"x", "x", .prim .int⟩) (.lit 0)) (some 3)⟩,
    ⟨3, .ret (some (.var ⟨"x", "x", .prim .int⟩))⟩,
    ⟨4, .branch (.bin .eq (.var ⟨"p", "p", .prim .int⟩) (.lit 0)) (some 5)⟩,
    ⟨5, .ret (some (.lit 0))⟩,
    ⟨6, .assign (.var ⟨"x", "x", .prim .int⟩) (.bin .add (.var ⟨"x", "x", .prim .int⟩) (.lit 1))⟩,
    ⟨7, .goto (some 1)⟩]
  targets_lt := by decide

/-- Liveness that stops early has not seen what is read, and both assignments count as dead.
Constants that stop before the increment has come round make the first return dead. Under bounds
that let both converge nothing is. -/
theorem recounted_dead_when_stopped :
    convergedWith recounted (limitedTo .rpo ⟨100, by decide⟩ ⟨1, by decide⟩) = some (true, false) ∧
    deadWith recounted (limitedTo .rpo ⟨100, by decide⟩ ⟨1, by decide⟩) = some [0, 5] ∧
    convergedWith recounted (limitedTo .rpo ⟨3, by decide⟩ ⟨100, by decide⟩) = some (false, true) ∧
    deadWith recounted (limitedTo .rpo ⟨3, by decide⟩ ⟨100, by decide⟩) = some [2] ∧
    convergedWith recounted (limitedTo .rpo ⟨100, by decide⟩ ⟨100, by decide⟩) = some (true, true) ∧
    deadWith recounted (limitedTo .rpo ⟨100, by decide⟩ ⟨100, by decide⟩) = some [] := by
  decide +kernel

end FlowLint
