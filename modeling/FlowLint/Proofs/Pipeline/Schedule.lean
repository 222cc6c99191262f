import FlowLint.Pipeline.Run
import FlowLint.Proofs.Except

/-! # Plans that are accepted

A plan is accepted exactly when every name is that of a task and every entry comes after entries for
the tasks whose results it reads. Entries may be repeated, and an entry behind a repeated one is
served by either of them.
-/
namespace FlowLint

theorem Task.ofId?_eq_some_iff {id : CodeText} {t : Task} :
    Task.ofId? id = some t ↔ id = CodeText.ofString t.id := by
  constructor
  · intro h
    rw [ofId?] at h
    have hid := List.find?_some h
    exact (eq_of_beq hid).symm
  · rintro rfl
    cases t <;> rfl

/-- Every analysis that is named exists, and those whose results it reads are named before it. -/
structure Plan.WellOrdered (p : Plan) : Prop where
  known : ∀ e ∈ p, ∃ t : Task, e.id = CodeText.ofString t.id
  ordered : ∀ i e (t : Task), p[i]? = some e → e.id = CodeText.ofString t.id →
    ∀ u ∈ t.needs, ∃ d ∈ p.take i, d.id = CodeText.ofString u.id

namespace Job
variable {e : PlanEntry} {j : Job}

theorem ofEntry_eq_ok_iff :
    ofEntry e = .ok j ↔ e.id = CodeText.ofString j.task.id ∧ e.options = j.options := by
  rw [← Task.ofId?_eq_some_iff, ofEntry]
  cases Task.ofId? e.id with
  | none => exact ⟨nofun, fun h => nomatch h.1⟩
  | some t =>
    obtain ⟨task, options⟩ := j
    simp

theorem ofEntry_error {err : Error} (h : ofEntry e = .error err) :
    err.code? = some .unknownAnalysis := by
  rw [ofEntry] at h
  split at h
  · cases h
  · cases h
    rfl

end Job

namespace Pipeline
variable {p : Plan} {jobs rest : List Job} {j : Job} {scheduled : List Task}

theorem checkSchedule_cons_iff : checkSchedule scheduled (j :: rest) = .ok () ↔
    (∀ t ∈ j.task.needs, t ∈ scheduled) ∧ checkSchedule (j.task :: scheduled) rest = .ok () := by
  rw [checkSchedule]
  split
  · next t hfind =>
    refine ⟨nofun, fun h => absurd (h.1 t (List.mem_of_find?_eq_some hfind)) ?_⟩
    simpa using List.find?_some hfind
  · next hfind =>
    rw [List.find?_eq_none] at hfind
    exact (and_iff_right fun t ht => by simpa using hfind t ht).symm

theorem checkSchedule_error {err : Error} (h : checkSchedule scheduled jobs = .error err) :
    err.code? = some .missingResult := by
  induction jobs generalizing scheduled with
  | nil => cases h
  | cons j rest ih =>
    rw [checkSchedule] at h
    split at h
    · cases h
      rfl
    · exact ih h

/-- A schedule is accepted if what an entry needs has been scheduled before, or is named by an entry
before it. -/
theorem checkSchedule_eq_ok_iff (h : List.Forall₂ (fun e j => Job.ofEntry e = .ok j) p jobs) :
    checkSchedule scheduled jobs = .ok () ↔ ∀ i e (t : Task), p[i]? = some e →
      e.id = CodeText.ofString t.id → ∀ u ∈ t.needs,
        u ∈ scheduled ∨ ∃ d ∈ p.take i, d.id = CodeText.ofString u.id := by
  induction h generalizing scheduled with
  | nil => exact ⟨nofun, fun _ => rfl⟩
  | @cons e j p jobs he _ ih =>
    have hid := (Job.ofEntry_eq_ok_iff.mp he).1
    rw [checkSchedule_cons_iff, ih]
    constructor
    · rintro ⟨hneeds, hrest⟩ i d t hd ht u hu
      cases i with
      | zero =>
        cases hd
        cases (Task.ofId?_eq_some_iff.mpr hid).symm.trans (Task.ofId?_eq_some_iff.mpr ht)
        exact .inl (hneeds u hu)
      | succ i =>
        rw [List.take_succ_cons]
        rcases hrest i d t hd ht u hu with hmem | ⟨c, hc, hcu⟩
        · rcases List.mem_cons.mp hmem with rfl | hmem
          · exact .inr ⟨e, List.mem_cons_self, hid⟩
          · exact .inl hmem
        · exact .inr ⟨c, List.mem_cons_of_mem _ hc, hcu⟩
    · intro hall
      constructor
      · intro u hu
        exact (hall 0 e j.task rfl hid u hu).resolve_right nofun
      · intro i d t hd ht u hu
        rcases hall (i + 1) d t hd ht u hu with hmem | ⟨c, hc, hcu⟩
        · exact .inl (List.mem_cons_of_mem _ hmem)
        · rcases List.mem_cons.mp hc with rfl | hc
          · cases (Task.ofId?_eq_some_iff.mpr hid).symm.trans (Task.ofId?_eq_some_iff.mpr hcu)
            exact .inl List.mem_cons_self
          · exact .inr ⟨c, hc, hcu⟩

theorem ofPlan_eq_ok {P : Pipeline} (h : ofPlan p = .ok P) :
    List.Forall₂ (fun e j => Job.ofEntry e = .ok j) p P.jobs ∧
      checkSchedule [] P.jobs = .ok () := by
  obtain ⟨jobs, hjobs, h⟩ := exists_of_bind h
  obtain ⟨_, hsched, h⟩ := exists_of_bind h
  cases h
  exact ⟨forall₂_of_mapM hjobs, hsched⟩

theorem ofPlan_error {err : Error} (h : ofPlan p = .error err) :
    err.code?.map ErrorCode.group = some .configuration := by
  rcases error_of_bind h with h | ⟨jobs, -, h⟩
  · obtain ⟨e, -, he⟩ := error_of_mapM h
    rw [Job.ofEntry_error he]
    rfl
  · rcases error_of_bind h with h | ⟨_, -, h⟩
    · rw [checkSchedule_error h]
      rfl
    · cases h

/-- The plans that are accepted are those that are well ordered. -/
theorem exists_ofPlan_iff : (∃ P, ofPlan p = .ok P) ↔ p.WellOrdered := by
  constructor
  · rintro ⟨P, hP⟩
    obtain ⟨hjobs, hsched⟩ := ofPlan_eq_ok hP
    refine ⟨fun e he => ?_, fun i e t hi ht u hu => ?_⟩
    · obtain ⟨j, -, hj⟩ := (mem_of_forall₂ hjobs).1 e he
      exact ⟨j.task, (Job.ofEntry_eq_ok_iff.mp hj).1⟩
    · exact ((checkSchedule_eq_ok_iff hjobs).mp hsched i e t hi ht u hu).resolve_left nofun
  · intro hp
    have hentries : ∀ e ∈ p, ∃ j, Job.ofEntry e = .ok j := by
      intro e he
      obtain ⟨t, ht⟩ := hp.known e he
      exact ⟨⟨t, e.options⟩, Job.ofEntry_eq_ok_iff.mpr ⟨ht, rfl⟩⟩
    obtain ⟨jobs, hjobs⟩ := exists_mapM hentries
    have hsched : checkSchedule [] jobs = .ok () :=
      (checkSchedule_eq_ok_iff (forall₂_of_mapM hjobs)).mpr fun i e t hi ht u hu =>
        .inr (hp.ordered i e t hi ht u hu)
    refine ⟨⟨jobs⟩, ?_⟩
    rw [ofPlan, hjobs]
    change (checkSchedule [] jobs >>= fun _ => _) = _
    rw [hsched]
    rfl

end Pipeline

end FlowLint
