import FlowLint.Proofs.Pipeline.Job
import FlowLint.Proofs.Pipeline.Schedule

/-! # Plans that differ in the order of visits

Such plans are accepted alike, and their runs stay alike from job to job. So the same code is found
dead under all of them, unless a dividend that is no constant stands over a divisor that is zero.
-/
namespace FlowLint

namespace Pipeline
variable {m : Method} {g : Graph} {s s' : Store}

structure Outcome.Alike (o o' : Outcome) : Prop where
  error : o.error? = o'.error?
  store : o.store.Alike o'.store

theorem checkSchedule_congr {jobs jobs' : List Job} (h : List.Forall₂ Job.SameButOrder jobs jobs')
    (scheduled : List Task) : checkSchedule scheduled jobs = checkSchedule scheduled jobs' := by
  induction h generalizing scheduled with
  | nil => rfl
  | cons hj _ ih => rw [checkSchedule, checkSchedule, hj.task, ih]

/-- Two runs of jobs that differ in the order of visits stay alike. -/
theorem runJobs_alike (hb : Graph.build m = .ok g) {jobs jobs' : List Job}
    (hjobs : List.Forall₂ Job.SameButOrder jobs jobs') (hc : ∀ j ∈ jobs, j.Converges g)
    (hc' : ∀ j ∈ jobs', j.Converges g) {scheduled : List Task}
    (hsched : checkSchedule scheduled jobs = .ok ()) (hs : s.Alike s')
    (hg : .graph ∈ scheduled → s.find? Task.graph.id = some (.graph g)) :
    (runJobs m jobs s).Alike (runJobs m jobs' s') := by
  induction hjobs generalizing s s' scheduled with
  | nil => exact ⟨rfl, hs⟩
  | @cons j j' rest rest' hj _ ih =>
    obtain ⟨hneeds, hrest⟩ := checkSchedule_cons_iff.mp hsched
    have hgraph : j.task ≠ .graph → s.find? Task.graph.id = some (.graph g) := by
      intro ht
      apply hg
      apply hneeds
      cases htask : j.task <;> simp_all [Task.needs]
    have hrun := Job.run_alike hb hj (hc j List.mem_cons_self) (hc' j' List.mem_cons_self) hs hgraph
    have hkept := Job.run_graph hb hgraph
    rw [runJobs, runJobs]
    generalize j.run m s = out at hrun hkept ⊢
    generalize j'.run m s' = out' at hrun ⊢
    obtain ⟨result, store, log⟩ := out
    obtain ⟨result', store', log'⟩ := out'
    obtain ⟨hresult, hstore⟩ := hrun
    dsimp only at hresult hstore hkept
    cases hresult with
    | error e => exact ⟨rfl, hstore⟩
    | ok h =>
      obtain ⟨herror, hstore⟩ := ih (fun j hj => hc j (List.mem_cons_of_mem _ hj))
        (fun j hj => hc' j (List.mem_cons_of_mem _ hj)) hrest hstore fun _ => hkept
      exact ⟨herror, hstore⟩

theorem detect_eq (hb : Graph.build m = .ok g) {P Q : Pipeline}
    (hjobs : List.Forall₂ Job.SameButOrder P.jobs Q.jobs)
    (hc : ∀ j ∈ P.jobs ++ Q.jobs, j.Converges g) (hsched : checkSchedule [] P.jobs = .ok ())
    (s : Store) : (P.detect m s).map (·.2) = (Q.detect m s).map (·.2) := by
  have hrun : (P.run m s).Alike (Q.run m s) :=
    runJobs_alike hb hjobs (fun j hj => hc j (List.mem_append_left _ hj))
      (fun j hj => hc j (List.mem_append_right _ hj)) hsched (.refl s) nofun
  rw [detect, detect]
  generalize P.run m s = out at hrun ⊢
  generalize Q.run m s = out' at hrun ⊢
  obtain ⟨store, log, error?⟩ := out
  obtain ⟨store', log', error?'⟩ := out'
  obtain ⟨herror, hstore⟩ := hrun
  dsimp only at herror hstore ⊢
  subst herror
  cases error? with
  | some e => rfl
  | none =>
    dsimp only
    have hget := hstore.get m Task.deadCode.id
    generalize store.get m Task.deadCode.id = x at hget ⊢
    generalize store'.get m Task.deadCode.id = y at hget ⊢
    cases hget with
    | error e => rfl
    | @ok a a' h =>
      have hread : a.read Artifact.positions? = a'.read Artifact.positions? := by cases h <;> rfl
      change ((a.read Artifact.positions? >>= fun dead => .ok (store, dead)).map (·.2)) =
        (a'.read Artifact.positions? >>= fun dead => .ok (store', dead)).map (·.2)
      rw [hread]
      cases a'.read Artifact.positions? <;> rfl

theorem ofPlan_agree {p q : Plan} (h : List.Forall₂ PlanEntry.SameButOrder p q) :
    Agree (fun P Q => List.Forall₂ Job.SameButOrder P.jobs Q.jobs ∧
      checkSchedule [] P.jobs = .ok ()) (ofPlan p) (ofPlan q) := by
  have hentry : ∀ e e', PlanEntry.SameButOrder e e' →
      Agree Job.SameButOrder (Job.ofEntry e) (Job.ofEntry e') := by
    intro e e' he
    rw [Job.ofEntry, Job.ofEntry, he.id]
    cases Task.ofId? e'.id with
    | none => exact .error _
    | some task => exact .ok ⟨rfl, he.options⟩
  rw [ofPlan, ofPlan]
  refine (Agree.mapM h hentry).bind fun jobs jobs' hjobs => ?_
  rw [← checkSchedule_congr hjobs]
  cases hsched : checkSchedule [] jobs with
  | error e => exact .error e
  | ok => exact .ok ⟨hjobs, hsched⟩

end Pipeline

/-- The order of visits shows nowhere as long as divisions are safe: not in the facts before and
after a node, and not in the code that plans find dead that differ in strategies. -/
theorem order_independent {m : Method} {g : Graph} (hb : Graph.build m = .ok g) :
    (∀ s s' bound bound' r r', solve ConstantPropagation.analysis s bound g = .ok r →
      r.converged = true → r.DividesSafely g →
      solve ConstantPropagation.analysis s' bound' g = .ok r' → r'.converged = true →
      r'.DividesSafely g → ∀ n,
        ConstantPropagation.analysis.same (r.before n) (r'.before n) = true ∧
        ConstantPropagation.analysis.same (r.after n) (r'.after n) = true) ∧
    ∀ p q : Plan, List.Forall₂ PlanEntry.SameButOrder p q → ∀ P, Pipeline.ofPlan p = .ok P →
      ∃ Q, Pipeline.ofPlan q = .ok Q ∧ ((∀ j ∈ P.jobs ++ Q.jobs, j.Converges g) →
        ∀ s, (P.detect m s).map (·.2) = (Q.detect m s).map (·.2)) := by
  obtain ⟨-, hg, -, -⟩ := Graph.build_spec hb
  constructor
  · intro s s' bound bound' r r' h hr hd h' hr' hd' n
    exact ConstantPropagation.solve_same hg h hr hd h' hr' hd' n
  · intro p q hpq P hP
    have hagree := Pipeline.ofPlan_agree hpq
    rw [hP] at hagree
    cases hq : Pipeline.ofPlan q with
    | error e =>
      rw [hq] at hagree
      cases hagree
    | ok Q =>
      rw [hq] at hagree
      obtain ⟨hjobs, hsched⟩ : List.Forall₂ Job.SameButOrder P.jobs Q.jobs ∧
          Pipeline.checkSchedule [] P.jobs = .ok () := by
        cases hagree with
        | ok h => exact h
      exact ⟨Q, rfl, fun hc s => Pipeline.detect_eq hb hjobs hc hsched s⟩

def orderedBy (s : Strategy) : Options where
  strategy? := some s
  maxIterations? := some 100

def planWith (s : Strategy) : Plan := Plan.standard.map fun e => ⟨e.id, orderedBy s⟩

theorem ofPlan_planWith (s : Strategy) : Pipeline.ofPlan (planWith s) =
    .ok ⟨[.graph, .constants, .liveness, .deadCode].map (⟨·, orderedBy s⟩)⟩ := rfl

def quotient : Method where
  name := "quotient"
  file := "quotient.ir"
  params := [⟨"p", "p", .prim .int⟩]
  body := [
    ⟨1, .assign (.var ⟨"y", "y", .prim .int⟩) (.lit 6)⟩,
    ⟨2, .assign (.var ⟨"z", "z", .prim .int⟩)
      (.bin .div (.var ⟨"p", "p", .prim .int⟩) (.var ⟨"y", "y", .prim .int⟩))⟩,
    ⟨3, .branch (.bin .eq (.var ⟨"z", "z", .prim .int⟩) (.lit 0)) (some 1)⟩,
    ⟨4, .ret (some (.var ⟨"z", "z", .prim .int⟩))⟩]
  targets_lt := by decide

theorem quotient_converges (s : Strategy) (hs : s = .fifo ∨ s = .lifo) : ∃ g r q,
    Graph.build quotient = .ok g ∧
    solve ConstantPropagation.analysis s 100 g = .ok r ∧ r.converged = true ∧
    r.DividesSafely g ∧ solve Liveness.analysis s 100 g = .ok q ∧ q.converged = true := by
  rcases hs with rfl | rfl <;> exact ⟨_, _, _, rfl, rfl, rfl, by decide, rfl, rfl⟩

theorem quotient_order_independent : ∃ g r r', Graph.build quotient = .ok g ∧
    solve ConstantPropagation.analysis .fifo 100 g = .ok r ∧ r.converged = true ∧
    r.DividesSafely g ∧
    solve ConstantPropagation.analysis .lifo 100 g = .ok r' ∧ r'.converged = true ∧
    r'.DividesSafely g ∧
    (∀ n, ConstantPropagation.analysis.same (r.before n) (r'.before n) = true ∧
      ConstantPropagation.analysis.same (r.after n) (r'.after n) = true) ∧
    ∃ P Q, Pipeline.ofPlan (planWith .fifo) = .ok P ∧ Pipeline.ofPlan (planWith .lifo) = .ok Q ∧
    (P.detect quotient .empty).map (·.2) = (Q.detect quotient .empty).map (·.2) := by
  obtain ⟨g, r, q, hb, hr, hconv, hd, hq, hqconv⟩ := quotient_converges .fifo (.inl rfl)
  obtain ⟨g', r', q', hb', hr', hconv', hd', hq', hqconv'⟩ := quotient_converges .lifo (.inr rfl)
  obtain rfl := Except.ok.inj (hb.symm.trans hb')
  obtain ⟨hfacts, hplans⟩ := order_independent hb
  have hsame : List.Forall₂ PlanEntry.SameButOrder (planWith .fifo) (planWith .lifo) :=
    List.forall₂_map_right_iff.mpr (List.forall₂_map_left_iff.mpr
      (List.forall₂_same.mpr fun _ _ => ⟨rfl, rfl, rfl⟩))
  obtain ⟨Q, hQ, hdetect⟩ := hplans _ _ hsame _ (ofPlan_planWith .fifo)
  refine ⟨g, r, r', hb, hr, hconv, hd, hr', hconv', hd',
    hfacts _ _ _ _ r r' hr hconv hd hr' hconv' hd', _, Q, ofPlan_planWith .fifo, hQ,
    hdetect ?_ .empty⟩
  cases (ofPlan_planWith .lifo).symm.trans hQ
  simp only [List.map_cons, List.map_nil, List.cons_append, List.nil_append, List.forall_mem_cons]
  exact ⟨trivial, ⟨r, hr, hconv, hd⟩, ⟨q, hq, hqconv⟩, trivial, trivial,
    ⟨r', hr', hconv', hd'⟩, ⟨q', hq', hqconv'⟩, trivial, nofun⟩

/-- A quotient whose divisor is set to zero on one of the paths to it, and a branch on it. -/
def lateZero : Method where
  name := "late"
  file := "late.ir"
  params := [⟨"p", "p", .prim .int⟩]
  body := [
    ⟨1, .branch (.bin .eq (.var ⟨"p", "p", .prim .int⟩) (.lit 0)) (some 5)⟩,
    ⟨2, .goto (some 9)⟩,
    ⟨3, .invoke (some (.var ⟨"x", "x", .prim .int⟩)) (.call "f" [] none)⟩,
    ⟨4, .assign (.var ⟨"z", "z", .prim .int⟩)
      (.bin .div (.var ⟨"x", "x", .prim .int⟩) (.var ⟨"y", "y", .prim .int⟩))⟩,
    ⟨5, .goto (some 6)⟩,
    ⟨6, .assign (.var ⟨"z", "z", .prim .int⟩) (.lit 1)⟩,
    ⟨7, .branch (.bin .eq (.var ⟨"z", "z", .prim .int⟩) (.lit 1)) (some 8)⟩,
    ⟨8, .ret (some (.lit 7))⟩,
    ⟨9, .ret (some (.lit 8))⟩,
    ⟨10, .assign (.var ⟨"y", "y", .prim .int⟩) (.lit 0)⟩,
    ⟨11, .goto (some 2)⟩]
  targets_lt := by decide

/-- What a run knows of a variable before a node, and whether it has converged. -/
def knownBefore (m : Method) (s : Strategy) (n : Node) (x : Var) : Option (Bool × Value) := do
  let g ← (Graph.build m).toOption
  let r ← (solve ConstantPropagation.analysis s 100 g).toOption
  return (r.converged, (r.before n).get x)

/-- The code that the standard plan finds dead with a strategy. -/
def deadUnder (m : Method) (s : Strategy) : Option (List Nat) := do
  let P ← (Pipeline.ofPlan (planWith s)).toOption
  let (_, dead) ← (P.detect m .empty).toOption
  return dead

/-- A run that divides before the zero comes by keeps what it saw. So the branch is not pruned, and
the statement behind it is dead under one order and alive under the other. -/
theorem lateZero_depends_on_order :
    knownBefore lateZero .fifo (.stmt 6) ⟨"z", "z", .prim .int⟩ = some (true, .nac) ∧
    knownBefore lateZero .rpo (.stmt 6) ⟨"z", "z", .prim .int⟩ = some (true, .const 1) ∧
    deadUnder lateZero .fifo = some [] ∧ deadUnder lateZero .rpo = some [7] := by
  decide +kernel

end FlowLint
