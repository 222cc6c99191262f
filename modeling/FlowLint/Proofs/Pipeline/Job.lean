import FlowLint.Pipeline.Job
import FlowLint.Proofs.DeadCode
import FlowLint.Proofs.Dataflow.OrderIndependence
import FlowLint.Proofs.Feasible
import FlowLint.Proofs.Pipeline.Store

/-! # Jobs that differ in the order of visits

On stores that are alike, two jobs of one task that differ in the strategy give results that are
alike and leave stores that are, as long as the facts do not depend on the order of visits.
-/
namespace FlowLint

namespace Job
variable {m : Method} {g : Graph} {s s' : Store}

theorem feasibleUnder_congr {a a' : Artifact} (h : a.Alike a') :
    (g.feasibleUnder fun n => (a.read Artifact.constants?).map (·.before n)) =
      g.feasibleUnder fun n => (a'.read Artifact.constants?).map (·.before n) := by
  cases h with
  | refl a => rfl
  | constants h =>
    have hedges : ∀ n, g.feasibleEdges (.ok (_ : Constants)) n = _ := fun n =>
      Graph.feasibleEdges_congr (h n) n
    rw [Graph.feasibleUnder, Graph.feasibleUnder]
    congr 1
    funext n
    exact congrArg (· >>= _) (hedges n)
  | live h => rfl

theorem reach_agree (hs : s.Alike s') (m : Method) :
    Agree (fun p p' => p.1 = p'.1 ∧ p.2.1 = p'.2.1 ∧ p.2.2.Alike p'.2.2)
      (reach m s) (reach m s') := by
  rw [reach, reach]
  refine (hs.get m _).bind fun graph graph' hgraph => ?_
  refine (hs.get m _).bind fun constants constants' hconstants => ?_
  refine (hs.get m _).bind fun live live' hlive => ?_
  have hread : graph.read Artifact.graph? = graph'.read Artifact.graph? := by
    cases hgraph <;> rfl
  refine (Agree.of_eq hread).bind fun g g' hg => ?_
  subst hg
  refine (Agree.of_eq (feasibleUnder_congr hconstants)).bind fun nodes nodes' hnodes => ?_
  exact .ok ⟨rfl, hnodes, hlive⟩

theorem liveAfter_agree {live live' : Artifact} (h : live.Alike live') (m : Method)
    (nodes : List Node) :
    Agree (fun f f' => ∀ n x, (f n).contains x = (f' n).contains x)
      (liveAfter m nodes live) (liveAfter m nodes live') := by
  rw [liveAfter, liveAfter]
  split
  · cases h with
    | refl =>
      cases live with
      | live r => exact .ok fun _ _ => rfl
      | _ => exact .error _
    | constants h => exact .error _
    | live h => exact .ok h
  · exact .ok fun _ _ => rfl

structure Outcome.Alike (o o' : Outcome) : Prop where
  result : Agree Artifact.Alike o.result o'.result
  store : o.store.Alike o'.store

theorem detect_alike (hs : s.Alike s') (m : Method) : (detect m s).Alike (detect m s') := by
  rw [detect, detect]
  have hreach := reach_agree hs m
  generalize reach m s = x at hreach ⊢
  generalize reach m s' = y at hreach ⊢
  cases hreach with
  | error e => exact ⟨.error e, hs⟩
  | @ok p p' h =>
    obtain ⟨g, nodes, live⟩ := p
    obtain ⟨g', nodes', live'⟩ := p'
    obtain ⟨rfl, rfl, hlive⟩ := h
    have hstore := hs.insert Task.reachableKey (.refl (.nodes nodes))
    have hafter := liveAfter_agree hlive m nodes
    dsimp only at hafter ⊢
    generalize liveAfter m nodes live = x at hafter ⊢
    generalize liveAfter m nodes live' = y at hafter ⊢
    cases hafter with
    | error e => exact ⟨.error e, hstore⟩
    | ok h =>
      dsimp only
      rw [Method.deadKinds_congr fun i _ _ => h (.stmt i)]
      exact ⟨.ok (.refl _), hstore⟩

end Job

/-- Options that differ in the strategy at most. -/
structure Options.SameButOrder (o o' : Options) : Prop where
  maxIterations : o.maxIterations? = o'.maxIterations?
  dot : o.dot? = o'.dot?

/-- Entries of one analysis that differ in the strategy at most. -/
structure PlanEntry.SameButOrder (e e' : PlanEntry) : Prop where
  id : e.id = e'.id
  options : e.options.SameButOrder e'.options

namespace Job
variable {m : Method} {g : Graph} {s s' : Store} {j j' : Job}

structure SameButOrder (j j' : Job) : Prop where
  task : j.task = j'.task
  options : j.options.SameButOrder j'.options

/-- The solver of a job converges on a graph, for constants with divisions that are safe. -/
def Converges (g : Graph) (j : Job) : Prop :=
  match j.task with
  | .constants => ∃ r, solve ConstantPropagation.analysis j.options.strategy
      j.options.maxIterations g = .ok r ∧ r.converged = true ∧ r.DividesSafely g
  | .liveness => ∃ r, solve Liveness.analysis j.options.strategy j.options.maxIterations g = .ok r ∧
      r.converged = true
  | _ => True

theorem solveOn_eq {φ : Type} {a : Analysis φ} {wrap : Solution φ → Artifact} {o : Options}
    {r : Solution φ} (hs : s.find? Task.graph.id = some (.graph g))
    (hr : solve a o.strategy o.maxIterations g = .ok r) :
    solveOn a wrap o m s = ⟨.ok (wrap r), s, [solverRecord a o.strategy r]⟩ := by
  have hget : s.get m Task.graph.id = .ok (.graph g) := by rw [Store.get, hs]
  have hsolution : (do
      let g ← (← s.get m Task.graph.id).read Artifact.graph?
      solve a o.strategy o.maxIterations g) = .ok r := by
    rw [hget]
    exact hr
  rw [solveOn, hsolution]

section
variable (hb : Graph.build m = .ok g) (hj : j.SameButOrder j') (hc : j.Converges g)
  (hc' : j'.Converges g) (hs : s.Alike s')
  (hg : j.task ≠ .graph → s.find? Task.graph.id = some (.graph g))
include hb hj hc hc' hs hg

/-- Two jobs that differ in the order of visits give results that are alike. -/
theorem perform_alike : (j.perform m s).Alike (j'.perform m s') := by
  obtain ⟨task, o⟩ := j
  obtain ⟨task', o'⟩ := j'
  obtain ⟨htask, hmax, hdot⟩ := hj
  dsimp only at htask hmax hdot hg
  subst htask
  obtain ⟨-, hcons, -⟩ := Graph.build_spec hb
  cases task with
  | graph =>
    have hdot : o.dot = o'.dot := by rw [Options.dot, Options.dot, hdot]
    simp only [perform, buildGraph, hb, hdot]
    refine ⟨.ok (.refl _), ?_⟩
    cases o'.dot with
    | false => exact hs
    | true => exact hs.insert _ (.refl _)
  | constants =>
    obtain ⟨r, hr, hconv, hd⟩ := hc
    obtain ⟨r', hr', hconv', hd'⟩ := hc'
    have hgraph := hg nofun
    rw [perform, perform, solveOn_eq hgraph hr, solveOn_eq (hs.graph hgraph) hr']
    refine ⟨.ok (.constants fun n x => ?_), hs⟩
    exact ConstantPropagation.get_eq_of_same (ConstantPropagation.before_valid hcons hr n)
      (ConstantPropagation.before_valid hcons hr' n)
      (ConstantPropagation.solve_same hcons hr hconv hd hr' hconv' hd' n).1 x
  | liveness =>
    obtain ⟨r, hr, hconv⟩ := hc
    obtain ⟨r', hr', hconv'⟩ := hc'
    have hgraph := hg nofun
    rw [perform, perform, solveOn_eq hgraph hr, solveOn_eq (hs.graph hgraph) hr']
    refine ⟨.ok (.live fun n x => ?_), hs⟩
    exact FactSet.contains_eq_of_same (Liveness.solve_same hcons hr hconv hr' hconv' n) x
  | deadCode => exact detect_alike hs m

theorem run_alike : (j.run m s).Alike (j'.run m s') := by
  have hperform := perform_alike hb hj hc hc' hs hg
  rw [run, run, hj.task]
  generalize j.perform m s = out at hperform ⊢
  generalize j'.perform m s' = out' at hperform ⊢
  obtain ⟨result, store, log⟩ := out
  obtain ⟨result', store', log'⟩ := out'
  obtain ⟨hresult, hstore⟩ := hperform
  cases hresult with
  | error e => exact ⟨.error e, hstore⟩
  | ok h => exact ⟨.ok h, hstore.insert _ h⟩

end

theorem solveOn_store {φ : Type} (a : Analysis φ) (wrap : Solution φ → Artifact) (o : Options)
    (m : Method) (s : Store) : (solveOn a wrap o m s).store = s := by
  unfold solveOn
  dsimp only
  split <;> rfl

theorem find?_detect (m : Method) (s : Store) {key : String} (hk : key ≠ Task.reachableKey) :
    (detect m s).store.find? key = s.find? key := by
  unfold detect
  split
  · rfl
  · have hinsert : ∀ a, (s.insert Task.reachableKey a).find? key = s.find? key := fun a =>
      (Store.find?_insert ..).trans (if_neg hk)
    dsimp only
    split <;> exact hinsert _

theorem find?_run (ht : j.task ≠ .graph) :
    (j.run m s).store.find? Task.graph.id = s.find? Task.graph.id := by
  have hperform : (j.perform m s).store.find? Task.graph.id = s.find? Task.graph.id := by
    rw [perform]
    split
    · next htask => exact absurd htask ht
    · rw [solveOn_store]
    · rw [solveOn_store]
    · exact find?_detect m s (by decide)
  have hid : Task.graph.id ≠ j.task.id := by
    cases htask : j.task with
    | graph => exact absurd htask ht
    | constants | liveness | deadCode => decide
  unfold run
  dsimp only
  split
  · rw [Store.find?_insert, if_neg hid]
    exact hperform
  · exact hperform

theorem run_graph (hb : Graph.build m = .ok g)
    (hg : j.task ≠ .graph → s.find? Task.graph.id = some (.graph g)) :
    (j.run m s).store.find? Task.graph.id = some (.graph g) := by
  by_cases ht : j.task = .graph
  · simp only [run, perform, ht, buildGraph, hb]
    exact (Store.find?_insert ..).trans (if_pos rfl)
  · rw [find?_run ht]
    exact hg ht

end Job

end FlowLint
