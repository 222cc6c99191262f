import FlowLint.Pipeline.Run
import FlowLint.Proofs.DeadCode
import FlowLint.Proofs.Pipeline.Job

/-! # What the plan of all analyses finds

On a method that has a graph the plan never fails, whatever results there were before. The code that
it finds dead is that under the results of its two solver runs, whether they have converged or not.
-/
namespace FlowLint

namespace Job
variable {m : Method} {g : Graph} {s : Store} {j : Job} {a : Artifact} {r : Solution Constants}
  {q : Solution LiveSet} {nodes : List Node}

theorem run_of_perform (h : (j.perform m s).result = .ok a) : (j.run m s).result = .ok a ∧
    ∀ key, (j.run m s).store.find? key =
      if key = j.task.id then some a else (j.perform m s).store.find? key := by
  unfold run
  dsimp only
  split
  · next a' ha =>
    obtain rfl : a = a' := Except.ok.inj (h.symm.trans ha)
    exact ⟨h, fun key => Store.find?_insert ..⟩
  · next e he =>
    rw [h] at he
    cases he

/-- The result of a solver run is kept under the name of its analysis, whether the run has converged
or not. -/
theorem run_solver {φ : Type} {a : Analysis φ} {wrap : Solution φ → Artifact} {r : Solution φ}
    (hj : j.perform m s = solveOn a wrap j.options m s)
    (hg : s.find? Task.graph.id = some (.graph g))
    (hr : solve a j.options.strategy j.options.maxIterations g = .ok r) :
    (j.run m s).result = .ok (wrap r) ∧ ∀ key, (j.run m s).store.find? key =
      if key = j.task.id then some (wrap r) else s.find? key := by
  rw [solveOn_eq hg hr] at hj
  obtain ⟨hresult, hfind⟩ := run_of_perform (congrArg (·.result) hj)
  rw [hj] at hfind
  exact ⟨hresult, hfind⟩

/-- Dead code is judged by the feasible nodes, which are kept, and by the result for liveness that
there is. -/
theorem detect_eq (hg : s.find? Task.graph.id = some (.graph g))
    (hr : s.find? Task.constants.id = some (.constants r))
    (hq : s.find? Task.liveness.id = some (.live q)) (hn : g.feasible r = .ok nodes) :
    ∃ log, detect m s = ⟨.ok (.positions (m.deadCode nodes q)),
      s.insert Task.reachableKey (.nodes nodes), log⟩ := by
  have hreach : reach m s = .ok (g, nodes, .live q) := by
    rw [reach, Store.get, Store.get, Store.get, hg, hr, hq]
    change (g.feasible r >>= fun nodes => .ok (g, nodes, Artifact.live q)) = _
    rw [hn]
    rfl
  obtain ⟨f, hf, hkinds⟩ : ∃ f, liveAfter m nodes (.live q) = .ok f ∧
      m.deadKinds nodes f = m.deadKinds nodes q.after := by
    rw [liveAfter]
    split
    · exact ⟨q.after, rfl, rfl⟩
    · next hany =>
      refine ⟨_, rfl, Method.deadKinds_congr fun i hi hmem => absurd ?_ hany⟩
      exact List.any_eq_true.mpr ⟨i, List.mem_range.mpr hi, decide_eq_true hmem⟩
  rw [detect, hreach]
  dsimp only
  rw [hf]
  dsimp only
  rw [hkinds]
  exact ⟨_, rfl⟩

end Job

namespace Pipeline
variable {m : Method} {s : Store} {j : Job} {rest : List Job} {a : Artifact}

/-- What a run of jobs leaves: its results and the error that ended it. -/
def Outcome.state (o : Outcome) : Store × Option Error := (o.store, o.error?)

theorem state_runJobs_cons (h : (j.run m s).result = .ok a) :
    (runJobs m (j :: rest) s).state = (runJobs m rest (j.run m s).store).state := by
  rw [runJobs, h]
  rfl

theorem detect_of_state {P : Pipeline} {s' : Store} {dead : List Nat}
    (h : (P.run m s).state = (s', none))
    (hfind : s'.find? Task.deadCode.id = some (.positions dead)) :
    P.detect m s = .ok (s', dead) := by
  obtain ⟨hstore, herror⟩ := Prod.mk.inj h
  rw [detect, herror, hstore, Store.get, hfind]
  rfl

end Pipeline

/-- The plan of all four analyses, with options for each of them. -/
def Plan.withOptions (o : Task → Options) : Plan :=
  [Task.graph, .constants, .liveness, .deadCode].map fun t => ⟨CodeText.ofString t.id, o t⟩

theorem Pipeline.ofPlan_withOptions (o : Task → Options) : ofPlan (Plan.withOptions o) =
    .ok ⟨[Task.graph, .constants, .liveness, .deadCode].map fun t => ⟨t, o t⟩⟩ := rfl

/-- The code that a plan finds dead in a method with the results that there are. -/
def Plan.deadCode (p : Plan) (m : Method) (s : Store) : Except Error (List Nat) := do
  let P ← Pipeline.ofPlan p
  return (← P.detect m s).2

/-- What the solver gives for the plan of all four analyses, and the code that the plan finds dead,
whatever results there were before. -/
structure Plan.Finds (o : Task → Options) (m : Method) (g : Graph) (r : Solution Constants)
    (q : Solution LiveSet) (dead : List Nat) : Prop where
  constants : solve ConstantPropagation.analysis (o .constants).strategy
    (o .constants).maxIterations g = .ok r
  liveness : solve Liveness.analysis (o .liveness).strategy (o .liveness).maxIterations g = .ok q
  deadCode : ∀ s, (Plan.withOptions o).deadCode m s = .ok dead

section
variable {m : Method} {g : Graph} {r r' : Solution Constants} {q q' : Solution LiveSet}
  {nodes : List Node} {o o' : Task → Options}

theorem deadCode_withOptions (hb : Graph.build m = .ok g)
    (hr : solve ConstantPropagation.analysis (o .constants).strategy (o .constants).maxIterations g
      = .ok r)
    (hq : solve Liveness.analysis (o .liveness).strategy (o .liveness).maxIterations g = .ok q)
    (hn : g.feasible r = .ok nodes) (s : Store) :
    (Plan.withOptions o).deadCode m s = .ok (m.deadCode nodes q) := by
  have hgraph : ((⟨.graph, o .graph⟩ : Job).perform m s).result = .ok (.graph g) := by
    rw [Job.perform, Job.buildGraph, hb]
  obtain ⟨hresult₁, hfind₁⟩ := Job.run_of_perform hgraph
  generalize hs₁ : ((⟨.graph, o .graph⟩ : Job).run m s).store = s₁ at hfind₁
  have hkept₁ := (hfind₁ Task.graph.id).trans (if_pos rfl)
  obtain ⟨hresult₂, hfind₂⟩ :=
    Job.run_solver (m := m) (j := ⟨.constants, o .constants⟩) rfl hkept₁ hr
  generalize hs₂ : ((⟨.constants, o .constants⟩ : Job).run m s₁).store = s₂ at hfind₂
  have hkept₂ := (hfind₂ Task.graph.id).trans hkept₁
  obtain ⟨hresult₃, hfind₃⟩ :=
    Job.run_solver (m := m) (j := ⟨.liveness, o .liveness⟩) rfl hkept₂ hq
  generalize hs₃ : ((⟨.liveness, o .liveness⟩ : Job).run m s₂).store = s₃ at hfind₃
  obtain ⟨log, hdead⟩ := Job.detect_eq (m := m) ((hfind₃ _).trans hkept₂)
    ((hfind₃ Task.constants.id).trans ((hfind₂ _).trans (if_pos rfl)))
    ((hfind₃ _).trans (if_pos rfl)) hn
  obtain ⟨hresult₄, hfind₄⟩ :=
    Job.run_of_perform (j := ⟨.deadCode, o .deadCode⟩) (congrArg (·.result) hdead)
  generalize hs₄ : ((⟨.deadCode, o .deadCode⟩ : Job).run m s₃).store = s₄ at hfind₄
  have hdetect : Pipeline.detect ⟨[Task.graph, .constants, .liveness, .deadCode].map
      fun t => ⟨t, o t⟩⟩ m s = .ok (s₄, m.deadCode nodes q) := by
    refine Pipeline.detect_of_state ?_ ((hfind₄ _).trans (if_pos rfl))
    rw [Pipeline.run, List.map_cons, List.map_cons, List.map_cons, List.map_cons,
      Pipeline.state_runJobs_cons hresult₁, hs₁, Pipeline.state_runJobs_cons hresult₂, hs₂,
      Pipeline.state_runJobs_cons hresult₃, hs₃, Pipeline.state_runJobs_cons hresult₄, hs₄]
    rfl
  rw [Plan.deadCode, Pipeline.ofPlan_withOptions]
  exact congrArg (· >>= fun p => Except.ok p.2) hdetect

theorem exists_finds (hb : Graph.build m = .ok g) (o : Task → Options) : ∃ r q nodes,
    (∀ n, (r.before n).Valid) ∧ g.feasible r = .ok nodes ∧
      Plan.Finds o m g r q (m.deadCode nodes q) := by
  obtain ⟨-, hg, -⟩ := Graph.build_spec hb
  obtain ⟨r, hr⟩ := solve_ok ConstantPropagation.lawful hg (o .constants).strategy
    (o .constants).maxIterations
  obtain ⟨q, hq⟩ := solve_ok Liveness.lawful hg (o .liveness).strategy (o .liveness).maxIterations
  have hvalid := ConstantPropagation.before_valid hg hr
  obtain ⟨nodes, hn, -⟩ := Graph.feasible_spec hg hvalid
  exact ⟨r, q, nodes, hvalid, hn, hr, hq, deadCode_withOptions hb hr hq hn⟩

end

end FlowLint
