import FlowLint.Proofs.Pipeline.Detection
import FlowLint.Proofs.Pipeline.Schedule

/-! # What runs of plans write

A job that finds what it needs cannot fail, and what it writes depends on what it needs only. So a
run of an accepted plan on a method that has a graph writes the same results over every store, and
under each name one that belongs there. On a method without a graph it fails at its first job,
before anything is written.
-/
namespace FlowLint

namespace Store
variable {ws vs : List (String × Artifact)} {key : String}

/-- The store with results stored one after the other. -/
def insertAll (s : Store) (ws : List (String × Artifact)) : Store :=
  ws.foldl (fun s w => s.insert w.1 w.2) s

theorem insertAll_append (s : Store) (ws vs : List (String × Artifact)) :
    s.insertAll (ws ++ vs) = (s.insertAll ws).insertAll vs := List.foldl_append

theorem find?_insertAll_of_not_mem (s : Store) (h : key ∉ ws.map (·.1)) :
    (s.insertAll ws).find? key = s.find? key := by
  induction ws generalizing s with
  | nil => rfl
  | cons w rest ih =>
    rw [List.map_cons, List.mem_cons, not_or] at h
    exact (ih (s.insert w.1 w.2) h.2).trans ((find?_insert ..).trans (if_neg h.1))

theorem find?_insertAll_of_mem (h : key ∈ ws.map (·.1)) :
    ∃ a, (key, a) ∈ ws ∧ ∀ s : Store, (s.insertAll ws).find? key = some a := by
  induction ws with
  | nil => cases h
  | cons w rest ih =>
    by_cases hrest : key ∈ rest.map (·.1)
    · obtain ⟨a, hmem, ha⟩ := ih hrest
      exact ⟨a, List.mem_cons_of_mem _ hmem, fun s => ha (s.insert w.1 w.2)⟩
    · -- the first result stays when none of the others has its name
      obtain rfl : key = w.1 := (List.mem_cons.mp h).resolve_right hrest
      refine ⟨w.2, List.mem_cons_self, fun s => ?_⟩
      exact (find?_insertAll_of_not_mem _ hrest).trans ((find?_insert ..).trans (if_pos rfl))

end Store

/-- A solution of an analysis on a graph, under any strategy and bound. -/
def Solution.Solves {φ : Type} (r : Solution φ) (a : Analysis φ) (g : Graph) : Prop :=
  ∃ s bound, solve a s bound g = .ok r

namespace Task
variable {g : Graph} {t u : Task}

theorem id_inj : t.id = u.id ↔ t = u := by cases t <;> cases u <;> decide

/-- Whether an artifact is a result of a task on a method with a graph. -/
def Gives (g : Graph) : Task → Artifact → Prop
  | graph, a => a = .graph g
  | constants, a => ∃ r, r.Solves ConstantPropagation.analysis g ∧ a = .constants r
  | liveness, a => ∃ q, q.Solves Liveness.analysis g ∧ a = .live q
  | deadCode, a => ∃ r q nodes, r.Solves ConstantPropagation.analysis g ∧
    q.Solves Liveness.analysis g ∧ g.feasible r = .ok nodes ∧
      a = .positions (g.method.deadCode nodes q)

end Task

/-- Whether an artifact is what runs on a method with a graph keep under a name. -/
inductive Graph.Keeps (g : Graph) : String → Artifact → Prop
  | result {t : Task} {a : Artifact} (h : t.Gives g a) : Keeps g t.id a
  | drawing : Keeps g Task.dotKey (.text (g.toDot g.method.name))
  | reachable {r : Solution Constants} {nodes : List Node}
    (hr : r.Solves ConstantPropagation.analysis g) (hnodes : g.feasible r = .ok nodes) :
    Keeps g Task.reachableKey (.nodes nodes)

/-- A store keeps a result of the task under its name. -/
def Store.Holds (s : Store) (g : Graph) (t : Task) : Prop :=
  ∃ a, s.find? t.id = some a ∧ t.Gives g a

namespace Job
variable {m : Method} {g : Graph} {s : Store} {j : Job} {a : Artifact}
  {extra : List (String × Artifact)}

/-- The names of what a job keeps beside its result. -/
def extraKeys (j : Job) : List String :=
  match j.task with
  | .graph => if j.options.dot then [Task.dotKey] else []
  | .deadCode => [Task.reachableKey]
  | _ => []

/-- The names under which a job keeps what it finds. -/
def keys (j : Job) : List String := j.extraKeys ++ [j.task.id]

theorem id_not_mem_extraKeys (j : Job) (t : Task) : t.id ∉ j.extraKeys := by
  have hextra : ∀ key ∈ j.extraKeys, key = Task.dotKey ∨ key = Task.reachableKey := by
    intro key hk
    rw [extraKeys] at hk
    split at hk
    · split at hk
      · exact .inl (List.mem_singleton.mp hk)
      · cases hk
    · exact .inr (List.mem_singleton.mp hk)
    · cases hk
  intro ht
  rcases hextra _ ht with h | h <;> cases t <;> exact absurd h (by decide)

theorem find?_writes (hextra : extra.map (·.1) = j.extraKeys) (s : Store) (t : Task) :
    (s.insertAll (extra ++ [(j.task.id, a)])).find? t.id =
      if t = j.task then some a else s.find? t.id := by
  rw [Store.insertAll_append]
  refine (Store.find?_insert (s.insertAll extra) j.task.id a t.id).trans ?_
  rw [Store.find?_insertAll_of_not_mem s (hextra ▸ j.id_not_mem_extraKeys t)]
  simp only [Task.id_inj]

/-- A job that finds what it needs performs its task, with an outcome that depends on that only. -/
theorem exists_perform (hb : Graph.build m = .ok g) (hneeds : ∀ t ∈ j.task.needs, s.Holds g t) :
    ∃ extra a, extra.map (·.1) = j.extraKeys ∧ (∀ w ∈ extra, g.Keeps w.1 w.2) ∧
      j.task.Gives g a ∧
      ∀ s' : Store, (∀ t ∈ j.task.needs, s'.find? t.id = s.find? t.id) →
        ∃ log, j.perform m s' = ⟨.ok a, s'.insertAll extra, log⟩ := by
  obtain ⟨rfl, hg, -, -⟩ := Graph.build_spec hb
  obtain ⟨task, o⟩ := j
  cases task with
  | graph =>
    have hperform : ∀ s' : Store, perform ⟨.graph, o⟩ g.method s' = ⟨.ok (.graph g),
        if o.dot then s'.insert Task.dotKey (.text (g.toDot g.method.name)) else s', []⟩ := by
      intro s'
      rw [perform, buildGraph, hb]
    by_cases hdot : o.dot = true
    · refine ⟨[(Task.dotKey, .text (g.toDot g.method.name))], _, ?_, ?_, rfl, fun s' _ => ?_⟩
      · exact (if_pos hdot).symm
      · exact List.forall_mem_singleton.mpr .drawing
      · rw [hperform, if_pos hdot]
        exact ⟨_, rfl⟩
    · refine ⟨[], _, (if_neg hdot).symm, List.forall_mem_nil _, rfl, fun s' _ => ?_⟩
      rw [hperform, if_neg hdot]
      exact ⟨_, rfl⟩
  | constants =>
    obtain ⟨_, hgraph, rfl⟩ := hneeds .graph List.mem_cons_self
    obtain ⟨r, hr⟩ := solve_ok ConstantPropagation.lawful hg o.strategy o.maxIterations
    refine ⟨[], _, rfl, List.forall_mem_nil _, ⟨r, ⟨_, _, hr⟩, rfl⟩,
      fun s' hs' => ⟨_, solveOn_eq ?_ hr⟩⟩
    exact (hs' _ List.mem_cons_self).trans hgraph
  | liveness =>
    obtain ⟨_, hgraph, rfl⟩ := hneeds .graph List.mem_cons_self
    obtain ⟨r, hr⟩ := solve_ok Liveness.lawful hg o.strategy o.maxIterations
    refine ⟨[], _, rfl, List.forall_mem_nil _, ⟨r, ⟨_, _, hr⟩, rfl⟩,
      fun s' hs' => ⟨_, solveOn_eq ?_ hr⟩⟩
    exact (hs' _ List.mem_cons_self).trans hgraph
  | deadCode =>
    have hothers : ∀ t, t ≠ .deadCode → t ∈ Task.deadCode.needs := by
      intro t
      cases t <;> decide
    obtain ⟨_, hgraph, rfl⟩ := hneeds .graph (hothers _ (by decide))
    obtain ⟨_, hconstants, r, hr, rfl⟩ := hneeds .constants (hothers _ (by decide))
    obtain ⟨_, hlive, q, hq, rfl⟩ := hneeds .liveness (hothers _ (by decide))
    have hvalid : ∀ n, (r.before n).Valid := by
      obtain ⟨_, _, hsolve⟩ := hr
      exact ConstantPropagation.before_valid hg hsolve
    obtain ⟨nodes, hnodes, -⟩ := Graph.feasible_spec hg hvalid
    refine ⟨[(Task.reachableKey, .nodes nodes)], .positions (g.method.deadCode nodes q), rfl, ?_,
      ⟨r, q, nodes, hr, hq, hnodes, rfl⟩, fun s' hs' => ?_⟩
    · exact List.forall_mem_singleton.mpr (.reachable hr hnodes)
    have hsame : ∀ t : Task, t ≠ .deadCode → s'.find? t.id = s.find? t.id :=
      fun t ht => hs' t (hothers t ht)
    exact detect_eq ((hsame .graph (by decide)).trans hgraph)
      ((hsame .constants (by decide)).trans hconstants)
      ((hsame .liveness (by decide)).trans hlive) hnodes

/-- A job that finds what it needs writes the same results over every store that has the same for
it. -/
theorem exists_writes (hb : Graph.build m = .ok g) (hneeds : ∀ t ∈ j.task.needs, s.Holds g t) :
    ∃ extra a, extra.map (·.1) = j.extraKeys ∧
      (∀ w ∈ extra ++ [(j.task.id, a)], g.Keeps w.1 w.2) ∧ j.task.Gives g a ∧
      ∀ s' : Store, (∀ t ∈ j.task.needs, s'.find? t.id = s.find? t.id) →
        (j.run m s').result = .ok a ∧
          (j.run m s').store = s'.insertAll (extra ++ [(j.task.id, a)]) := by
  obtain ⟨extra, a, hextra, hkeeps, hgives, hperform⟩ := exists_perform hb hneeds
  refine ⟨extra, a, hextra, ?_, hgives, fun s' hs' => ?_⟩
  · exact List.forall_mem_append.mpr ⟨hkeeps, List.forall_mem_singleton.mpr (.result hgives)⟩
  obtain ⟨log, hlog⟩ := hperform s' hs'
  rw [run, hlog, Store.insertAll_append]
  exact ⟨rfl, rfl⟩

end Job

namespace Pipeline
variable {m : Method} {g : Graph} {s : Store} {jobs : List Job}

/-- A run of jobs in order writes the same results over every store that has the same for them. -/
theorem exists_writes (hb : Graph.build m = .ok g) {scheduled : List Task}
    (hsched : checkSchedule scheduled jobs = .ok ()) (hs : ∀ t ∈ scheduled, s.Holds g t) :
    ∃ ws, ws.map (·.1) = jobs.flatMap Job.keys ∧ (∀ w ∈ ws, g.Keeps w.1 w.2) ∧
      ∀ s' : Store, (∀ t ∈ scheduled, s'.find? t.id = s.find? t.id) →
        (runJobs m jobs s').state = (s'.insertAll ws, none) := by
  induction jobs generalizing scheduled s with
  | nil => exact ⟨[], rfl, nofun, fun s' _ => rfl⟩
  | cons j rest ih =>
    obtain ⟨hneeds, hrest⟩ := checkSchedule_cons_iff.mp hsched
    obtain ⟨extra, a, hextra, hkeeps, hgives, hrun⟩ :=
      Job.exists_writes hb fun t ht => hs t (hneeds t ht)
    have hholds : ∀ t ∈ j.task :: scheduled,
        (s.insertAll (extra ++ [(j.task.id, a)])).Holds g t := by
      intro t ht
      rw [Store.Holds, Job.find?_writes hextra]
      by_cases htask : t = j.task
      · exact ⟨a, if_pos htask, htask ▸ hgives⟩
      · rw [if_neg htask]
        exact hs t ((List.mem_cons.mp ht).resolve_left htask)
    obtain ⟨ws, hws, hkept, hruns⟩ := ih hrest hholds
    refine ⟨extra ++ [(j.task.id, a)] ++ ws, ?_, List.forall_mem_append.mpr ⟨hkeeps, hkept⟩,
      fun s' hs' => ?_⟩
    · rw [List.map_append, List.map_append, hextra, hws]
      rfl
    obtain ⟨hresult, hstore⟩ := hrun s' fun t ht => hs' t (hneeds t ht)
    rw [state_runJobs_cons hresult, hstore, s'.insertAll_append _ ws]
    apply hruns
    intro t ht
    rw [Job.find?_writes hextra, Job.find?_writes hextra]
    by_cases htask : t = j.task
    · rw [if_pos htask, if_pos htask]
    · rw [if_neg htask, if_neg htask]
      exact hs' t ((List.mem_cons.mp ht).resolve_left htask)

/-- On a method without a graph the first job fails and leaves the store as it is. -/
theorem run_of_build_error {e : Error} (hb : Graph.build m = .error e) {P : Pipeline}
    (hsched : checkSchedule [] P.jobs = .ok ()) (hP : P.jobs ≠ []) (s : Store) :
    (P.run m s).state = (s, some e) := by
  obtain ⟨jobs⟩ := P
  cases jobs with
  | nil => exact absurd rfl hP
  | cons j rest =>
    obtain ⟨hneeds, -⟩ := checkSchedule_cons_iff.mp hsched
    obtain ⟨task, o⟩ := j
    -- only the graph can come first, because every other task needs it
    cases task with
    | graph => simp only [run, runJobs, Job.run, Job.perform, Job.buildGraph, hb]; rfl
    | constants | liveness | deadCode => cases hneeds .graph List.mem_cons_self

end Pipeline

/-- The names under which an entry has its results kept: that of its analysis, that of the graph in
the DOT language if the entry asks for it, and that of the feasible nodes for dead code. -/
def PlanEntry.keys (e : PlanEntry) : List String :=
  match Task.ofId? e.id with
  | some t => Job.keys ⟨t, e.options⟩
  | none => []

theorem PlanEntry.keys_eq {e : PlanEntry} {j : Job} (h : Job.ofEntry e = .ok j) :
    e.keys = j.keys := by
  obtain ⟨hid, hoptions⟩ := Job.ofEntry_eq_ok_iff.mp h
  rw [keys, Task.ofId?_eq_some_iff.mpr hid, hoptions]

section
variable {p : Plan} {P : Pipeline} {m : Method} {g : Graph} (hP : Pipeline.ofPlan p = .ok P)
include hP

/-- A run of a plan on a method that has a graph writes the same results over every store. -/
theorem ofPlan_run_ok (hb : Graph.build m = .ok g) :
    ∃ ws, ws.map (·.1) = p.flatMap PlanEntry.keys ∧ (∀ w ∈ ws, g.Keeps w.1 w.2) ∧
      ∀ s, (P.run m s).state = (s.insertAll ws, none) := by
  obtain ⟨hjobs, hsched⟩ := Pipeline.ofPlan_eq_ok hP
  obtain ⟨ws, hws, hkept, hrun⟩ := Pipeline.exists_writes (s := .empty) hb hsched nofun
  refine ⟨ws, hws.trans ?_, hkept, fun s => hrun s nofun⟩
  generalize P.jobs = jobs at hjobs
  clear hP
  induction hjobs with
  | nil => rfl
  | cons he _ ih => rw [List.flatMap_cons, List.flatMap_cons, PlanEntry.keys_eq he, ih]

theorem ofPlan_run_error {e : Error} (hb : Graph.build m = .error e) (s : Store) :
    (P.run m s).state = (s, if p = [] then none else some e) := by
  obtain ⟨hjobs, hsched⟩ := Pipeline.ofPlan_eq_ok hP
  obtain ⟨jobs⟩ := P
  cases hjobs with
  | nil => rfl
  | cons he hrest =>
    rw [if_neg nofun]
    exact Pipeline.run_of_build_error hb hsched nofun s

end

/-- A plan is accepted exactly if it is well ordered. A run of an accepted plan fails only for want
of a jump target, and leaves the store as it was then. Otherwise all entries have their results on
the graph of the method, and these do not depend on what was stored before. -/
theorem accepted_run (p : Plan) :
    ((∃ P, Pipeline.ofPlan p = .ok P) ↔ p.WellOrdered) ∧
    (∀ e, Pipeline.ofPlan p = .error e → e.code?.map ErrorCode.group = some .configuration) ∧
    ∀ P, Pipeline.ofPlan p = .ok P → ∀ m s,
      ((P.run m s).error?.isSome = true ↔ p ≠ [] ∧ ∃ st ∈ m.body, ¬st.action.Complete) ∧
      (∀ e, (P.run m s).error? = some e →
        e.code? = some .danglingTarget ∧ (P.run m s).store = s) ∧
      ((P.run m s).error? = none →
        ∀ d ∈ p, ∀ key ∈ d.keys, ∃ g a, Graph.build m = .ok g ∧ g.Keeps key a ∧
          ∀ s', (P.run m s').store.find? key = some a) := by
  refine ⟨Pipeline.exists_ofPlan_iff, fun e => Pipeline.ofPlan_error, fun P hP m s => ?_⟩
  cases hb : Graph.build m with
  | ok g =>
    obtain ⟨ws, hws, hkept, hrun⟩ := ofPlan_run_ok hP hb
    have hstore : ∀ s', (P.run m s').store = s'.insertAll ws :=
      fun s' => congrArg Prod.fst (hrun s')
    have herror : (P.run m s).error? = none := congrArg Prod.snd (hrun s)
    rw [herror]
    refine ⟨iff_of_false nofun ?_, nofun, fun _ d hd key hkey => ?_⟩
    · rintro ⟨-, st, hst, hnot⟩
      exact hnot ((Graph.build_spec hb).2.2.1 st hst)
    · have hmem : key ∈ ws.map (·.1) := hws ▸ List.mem_flatMap.mpr ⟨d, hd, hkey⟩
      obtain ⟨a, hwrite, ha⟩ := Store.find?_insertAll_of_mem hmem
      exact ⟨g, a, rfl, hkept _ hwrite, fun s' => hstore s' ▸ ha s'⟩
  | error e =>
    have hincomplete : ∃ st ∈ m.body, ¬st.action.Complete := by
      by_contra hall
      push Not at hall
      obtain ⟨g, hg⟩ := Graph.build_ok hall
      cases hb.symm.trans hg
    obtain ⟨hstore, herror⟩ := Prod.mk.inj (ofPlan_run_error hP hb s)
    rw [herror, hstore]
    by_cases hp : p = []
    · subst hp
      exact ⟨iff_of_false nofun fun h => h.1 rfl, nofun, fun _ => nofun⟩
    · rw [if_neg hp]
      refine ⟨iff_of_true rfl ⟨hp, hincomplete⟩, ?_, nofun⟩
      rintro _ ⟨⟩
      exact ⟨Graph.build_error hb, rfl⟩

def drawing (dot : Bool) : Options where
  maxIterations? := some 50
  dot? := some dot

/-- A plan that repeats the graph behind constants, and asks for it in the DOT language then. -/
def repeating : Plan := [⟨"cfg", drawing false⟩, ⟨"constprop", drawing false⟩,
  ⟨"cfg", drawing true⟩, ⟨"livevar", drawing false⟩, ⟨"deadcode", drawing false⟩]

def jumping (target : Option (Fin 2)) : Method where
  name := "jump"
  file := "jump.ir"
  params := []
  body := [⟨1, .goto (target.map Fin.val)⟩, ⟨2, .ret none⟩]
  targets_lt := by
    intro s hs t ht
    rcases List.mem_pair.mp hs with rfl | rfl
    · obtain ⟨i, -, rfl⟩ := Option.map_eq_some_iff.mp (Option.mem_toList.mp ht)
      exact i.isLt
    · cases ht

/-- A store that a caller has put something else into. -/
def littered : Store := ⟨[("cfg", .value .null), ("deadcode.reachable", .text "left over")]⟩

theorem repeating_run : ∃ P, Pipeline.ofPlan repeating = .ok P ∧ repeating.WellOrdered ∧
    (P.run (jumping (some 1)) littered).error? = none ∧
    (∀ key ∈ ["cfg", "cfg.dot", "constprop", "livevar", "deadcode", "deadcode.reachable"],
      ∃ g a, Graph.build (jumping (some 1)) = .ok g ∧ g.Keeps key a ∧
        ∀ s, (P.run (jumping (some 1)) s).store.find? key = some a) ∧
    ∃ e, (P.run (jumping none) littered).error? = some e ∧ e.code? = some .danglingTarget ∧
      (P.run (jumping none) littered).store = littered := by
  obtain ⟨P, hP⟩ : ∃ P, Pipeline.ofPlan repeating = .ok P := ⟨_, rfl⟩
  obtain ⟨hordered, -, hrun⟩ := accepted_run repeating
  obtain ⟨hfails, -, hkept⟩ := hrun P hP (jumping (some 1)) littered
  obtain ⟨hfails', herror, -⟩ := hrun P hP (jumping none) littered
  have hok : (P.run (jumping (some 1)) littered).error? = none := by
    rw [← Option.not_isSome_iff_eq_none, hfails]
    rintro ⟨-, st, hst, hnot⟩
    revert st
    simp [jumping, Action.Complete]
  have hstuck : (P.run (jumping none) littered).error?.isSome = true :=
    hfails'.mpr ⟨List.cons_ne_nil _ _, _, List.mem_cons_self, by simp [Action.Complete]⟩
  obtain ⟨e, he⟩ := Option.isSome_iff_exists.mp hstuck
  refine ⟨P, hP, hordered.mp ⟨P, hP⟩, hok, fun key hkey => ?_, e, he, herror e he⟩
  obtain ⟨d, hd, hkey⟩ : ∃ d ∈ repeating, key ∈ d.keys := by
    revert key
    decide
  exact hkept hok d hd key hkey

end FlowLint
