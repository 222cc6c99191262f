import FlowLint.Proofs.Pipeline.Detection
import FlowLint.Proofs.Pipeline.Schedule

/-! # What a run keeps of a detection

A detection keeps the positions of the dead statements together with the nodes that it judged them
by. No other job touches either of them. So a run that has detected dead code leaves both, and they
belong together, however often the plan repeats a detection and whatever it runs after it.
-/
namespace FlowLint

namespace Store
variable {s : Store} {m : Method} {nodes : List Node} {dead : List Nat} {i : Nat}

/-- Positions of dead statements that are kept with the nodes they were judged by. -/
structure Verdict (s : Store) (m : Method) (nodes : List Node) (dead : List Nat) : Prop where
  reachable : s.find? Task.reachableKey = some (.nodes nodes)
  deadCode : s.find? Task.deadCode.id = some (.positions dead)
  judged : ∃ live, dead = (m.deadKinds nodes live).map (·.1)

theorem Verdict.ascending (h : s.Verdict m nodes dead) : dead.Pairwise (· < ·) := by
  obtain ⟨live, rfl⟩ := h.judged
  exact m.deadKinds_pairwise nodes live

/-- A dead statement that is reached assigns a variable, and one that is not has a source line. -/
theorem Verdict.reason (h : s.Verdict m nodes dead) (hi : i ∈ dead) :
    ∃ st, m.body[i]? = some st ∧ (.stmt i ∉ nodes → 0 < st.line) ∧
      (.stmt i ∈ nodes → ∃ x e, st.action.definition? = some (some (.var x), e)) := by
  obtain ⟨live, rfl⟩ := h.judged
  obtain ⟨⟨i, k⟩, hmem, rfl⟩ := List.mem_map.mp hi
  obtain ⟨st, hst, hk⟩ := Method.mem_deadKinds.mp hmem
  have hwhy := Method.deadKind?_eq_some_iff.mp hk
  refine ⟨st, hst, ?_⟩
  cases k with
  | unreachable => exact ⟨fun _ => hwhy.2, fun hn => absurd hn hwhy.1⟩
  | useless =>
    obtain ⟨x, e, hdef, -⟩ := Stmt.isUseless_iff.mp hwhy.2
    exact ⟨fun hn => absurd hwhy.1 hn, fun _ => ⟨x, e, hdef⟩⟩

def HasVerdict (s : Store) (m : Method) : Prop := ∃ nodes dead, s.Verdict m nodes dead

end Store

namespace Job
variable {m : Method} {s : Store} {j : Job} {a : Artifact} {key : String}

/-- Jobs other than a detection keep nothing beside their result but the graph in the DOT
language. -/
theorem find?_perform (ht : j.task ≠ .deadCode) (hkey : key ≠ Task.dotKey) :
    (j.perform m s).store.find? key = s.find? key := by
  rw [perform]
  split
  · rw [buildGraph]
    split
    · rfl
    · cases j.options.dot with
      | false => rfl
      | true => exact (Store.find?_insert ..).trans (if_neg hkey)
  · rw [solveOn_store]
  · rw [solveOn_store]
  · next htask => exact absurd htask ht

theorem detect_verdict (h : (detect m s).result = .ok a) : ∃ nodes dead,
    a = .positions dead ∧ (detect m s).store.find? Task.reachableKey = some (.nodes nodes) ∧
      ∃ live, dead = (m.deadKinds nodes live).map (·.1) := by
  rw [detect] at h ⊢
  split at h
  · cases h
  · next g nodes live hreach =>
    dsimp only at h ⊢
    split at h
    · cases h
    · cases h
      exact ⟨nodes, _, rfl, (Store.find?_insert ..).trans (if_pos rfl), _, rfl⟩

/-- A detection makes a verdict, and other jobs keep the one that there is. -/
theorem run_verdict (h : (j.perform m s).result = .ok a)
    (hs : j.task ≠ .deadCode → s.HasVerdict m) : (j.run m s).store.HasVerdict m := by
  obtain ⟨-, hfind⟩ := run_of_perform h
  by_cases ht : j.task = .deadCode
  · have hperform : j.perform m s = detect m s := by rw [perform, ht]
    rw [hperform] at h hfind
    obtain ⟨nodes, dead, rfl, hreachable, hjudged⟩ := detect_verdict h
    rw [ht] at hfind
    refine ⟨nodes, dead, ?_, (hfind _).trans (if_pos rfl), hjudged⟩
    exact (hfind _).trans ((if_neg (by decide)).trans hreachable)
  · obtain ⟨nodes, dead, hverdict⟩ := hs ht
    have hkept : ∀ key, key ≠ j.task.id → key ≠ Task.dotKey →
        (j.run m s).store.find? key = s.find? key := fun key hid hdot =>
      (hfind key).trans ((if_neg hid).trans (find?_perform ht hdot))
    refine ⟨nodes, dead, ?_, ?_, hverdict.judged⟩
    · refine (hkept _ ?_ (by decide)).trans hverdict.reachable
      cases j.task <;> decide
    · refine (hkept _ ?_ (by decide)).trans hverdict.deadCode
      revert ht
      cases j.task <;> decide

end Job

namespace Pipeline
variable {m : Method} {s : Store} {jobs : List Job}

/-- A run that does not fail leaves a verdict if one of its jobs makes one, or if there was one. -/
theorem runJobs_verdict (h : (runJobs m jobs s).error? = none)
    (hs : (∀ j ∈ jobs, j.task ≠ .deadCode) → s.HasVerdict m) :
    (runJobs m jobs s).store.HasVerdict m := by
  induction jobs generalizing s with
  | nil => exact hs nofun
  | cons j rest ih =>
    cases hperform : (j.perform m s).result with
    | error e =>
      simp only [runJobs, Job.run, hperform] at h
      cases h
    | ok a =>
      have hstate : (runJobs m (j :: rest) s).state = (runJobs m rest (j.run m s).store).state :=
        state_runJobs_cons (Job.run_of_perform hperform).1
      obtain ⟨hstore, herror⟩ := Prod.mk.inj hstate
      rw [hstore]
      rw [herror] at h
      refine ih h fun hrest => Job.run_verdict hperform fun hj => hs ?_
      exact List.forall_mem_cons.mpr ⟨hj, hrest⟩

/-- A run of a plan with a detection leaves a verdict, whatever there was before. -/
theorem ofPlan_verdict {p : Plan} {P : Pipeline} (hP : ofPlan p = .ok P)
    (hp : ∃ e ∈ p, e.id = CodeText.ofString Task.deadCode.id)
    (h : (P.run m s).error? = none) : (P.run m s).store.HasVerdict m := by
  refine runJobs_verdict h fun hnone => ?_
  obtain ⟨e, he, hid⟩ := hp
  obtain ⟨j, hj, hentry⟩ := (mem_of_forall₂ (ofPlan_eq_ok hP).1).1 e he
  have hjob := Task.ofId?_eq_some_iff.mpr (Job.ofEntry_eq_ok_iff.mp hentry).1
  have htask : Task.deadCode = j.task :=
    Option.some.inj ((Task.ofId?_eq_some_iff.mpr hid).symm.trans hjob)
  exact absurd htask.symm (hnone j hj)

end Pipeline

end FlowLint
