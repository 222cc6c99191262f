import FlowLint.Report.Basic
import FlowLint.Proofs.Dataflow.ConstantPropagation
import FlowLint.Proofs.Pipeline.Verdict
import FlowLint.Proofs.Verdicts

/-! # What reports hold

A report is called with the dead statements of methods, and a call adds one diagnostic for each of
them. The report holds the diagnostics of the calls that did not fail, in order, and the numbers of
each kind. After the run of a plan its dead statements are reported for the reason that made them
dead.
-/
namespace FlowLint

theorem Action.place?_of_definition? {τ : Type} {a : Action τ} {place? : Option LValue} {e : Expr}
    (h : a.definition? = some (place?, e)) : a.place? = place? := by
  cases a with
  | assign place value =>
    cases h
    rfl
  | invoke place call =>
    cases h
    rfl
  | _ => cases h

namespace Report
variable {m : Method} {s : Store} {r : Report} {set : Except Error (List Subject)}
  {given dead : List Subject} {ds : List Diagnostic} {severity : Severity}

/-- A call for dead statements of a method with its results, and perhaps with the statements that
are reached. -/
structure Call where
  method : Method
  results : Store
  dead : List Subject
  reachable? : Option (List Subject)

/-- The statements one by one: each is looked for among those that are reached and its diagnostic is
added, until a search fails. -/
def addEach (m : Method) (set : Except Error (List Subject)) :
    Report → List Subject → Report × Except Error (List Diagnostic)
  | r, [] => (r, .ok [])
  | r, subject :: rest =>
    match set with
    | .error e => (r, .error e)
    | .ok reachable =>
      let d := r.diagnosticFor m reachable subject
      let after := addEach m set (r.add d) rest
      (after.1, after.2.map (d :: ·))

/-- What a call leaves of a report, also when it fails on its way, and what it gives. -/
def call (r : Report) (c : Call) : Report × Except Error (List Diagnostic) :=
  match reachableSet c.method c.results c.reachable? with
  | .error e => (r, .error e)
  | .ok set => addEach c.method set r c.dead

/-- One call after the other, each on the report that the one before has left, with all that they
give. -/
def calls : Report → List Call → Report × List (Except Error (List Diagnostic))
  | r, [] => (r, [])
  | r, c :: rest =>
    let first := r.call c
    let others := calls first.1 rest
    (others.1, first.2 :: others.2)

theorem addEach_ok (r : Report) (m : Method) (reachable dead : List Subject) :
    addEach m (.ok reachable) r dead = ((dead.map (r.diagnosticFor m reachable)).foldl add r,
      .ok (dead.map (r.diagnosticFor m reachable))) := by
  induction dead generalizing r with
  | nil => rfl
  | cons subject rest ih =>
    rw [addEach, ih]
    rfl

theorem addDead_of_set {c : Call} (hset : reachableSet c.method c.results c.reachable? = .ok set)
    (r : Report) : r.addDead c.method c.results c.dead c.reachable? =
      (if c.dead = [] then .ok [] else set).map fun reachable =>
        let added := c.dead.map (r.diagnosticFor c.method reachable)
        (added.foldl add r, added) := by
  rw [addDead, hset]
  cases c.dead with
  | nil => rfl
  | cons subject rest =>
    rw [if_neg (List.cons_ne_nil subject rest)]
    cases set <;> rfl

/-- Adding statements one by one does the same as adding them together: all of them are looked for
in one place, so the first search fails if any does. -/
theorem call_eq (r : Report) (c : Call) :
    r.call c = match r.addDead c.method c.results c.dead c.reachable? with
      | .ok (r', ds) => (r', .ok ds)
      | .error e => (r, .error e) := by
  rw [call]
  cases hset : reachableSet c.method c.results c.reachable? with
  | error e =>
    rw [addDead, hset]
    rfl
  | ok set =>
    rw [addDead_of_set hset]
    cases set with
    | ok reachable =>
      dsimp only
      rw [addEach_ok]
      cases c.dead <;> rfl
    | error e => cases c.dead <;> rfl

/-- A call that gives diagnostics gives one for each statement, by some statements that are reached,
and adds them all. -/
theorem call_ok {c : Call} (h : (r.call c).2 = .ok ds) : (r.call c).1 = ds.foldl add r ∧
    ∃ reachable, ds = c.dead.map (r.diagnosticFor c.method reachable) := by
  rw [call_eq] at h ⊢
  cases hset : reachableSet c.method c.results c.reachable? with
  | error e =>
    rw [addDead, hset] at h
    cases h
  | ok set =>
    rw [addDead_of_set hset] at h ⊢
    cases hreachable : if c.dead = [] then .ok [] else set with
    | error e =>
      rw [hreachable] at h
      cases h
    | ok reachable =>
      rw [hreachable] at h
      cases h
      exact ⟨rfl, reachable, rfl⟩

/-- A call that fails leaves the report as it was, wherever it failed. -/
theorem call_error {c : Call} {e : Error} (h : (r.call c).2 = .error e) : (r.call c).1 = r := by
  rw [call_eq] at h ⊢
  split at h
  · cases h
  · rfl

theorem subjectsIn_of_nodes? {a : Artifact} {nodes : List Node} (h : a.nodes? = some nodes) :
    subjectsIn a = .ok (nodes.map .node) := by
  cases a with
  | graph | nodes | positions =>
    cases h
    rfl
  | _ => cases h

/-- What a call gives: an error if there is nothing to go by, and otherwise a diagnostic for every
statement, in order, by the statements that are given as reached or else the nodes of the result
that is stored. -/
structure Call.Answered (severity : Severity) (c : Call) (answer : Except Error (List Diagnostic)) :
    Prop where
  missing : c.reachable? = none → c.results.find? Task.reachableKey = none →
    answer = .error (.noReachableSet c.method.name)
  given : ∀ reachable, c.reachable? = some reachable →
    answer = .ok (c.dead.map (diagnosticFor { severity } c.method reachable))
  stored : ∀ a nodes, c.reachable? = none → c.results.find? Task.reachableKey = some a →
    a.nodes? = some nodes →
      answer = .ok (c.dead.map (diagnosticFor { severity } c.method (nodes.map .node)))
  each : ∀ ds, answer = .ok ds →
    ∃ reachable, ds = c.dead.map (diagnosticFor { severity } c.method reachable)

theorem call_answered (r : Report) (c : Call) : c.Answered r.severity (r.call c).2 := by
  have hset : ∀ reachable, reachableSet c.method c.results c.reachable? = .ok (.ok reachable) →
      (r.call c).2 = .ok (c.dead.map (r.diagnosticFor c.method reachable)) := by
    intro reachable hset
    rw [call, hset]
    exact congrArg Prod.snd (addEach_ok r c.method reachable c.dead)
  refine ⟨fun hnone hstored => ?_, fun reachable hgiven => hset reachable ?_,
    fun a nodes hnone hstored hnodes => hset _ ?_, fun ds hds => (call_ok hds).2⟩
  · rw [call, hnone, reachableSet, storedSet, hstored]
    rfl
  · rw [hgiven, reachableSet]
  · rw [hnone, reachableSet, storedSet, hstored]
    exact congrArg Except.ok (subjectsIn_of_nodes? hnodes)

/-- A report whose numbers are those of its diagnostics. -/
structure Counted (r : Report) : Prop where
  unreachable : r.tally.unreachable = r.diagnostics.countP (·.id = Tally.unreachableId)
  useless : r.tally.useless = r.diagnostics.countP (·.id = Tally.uselessId)
  total : r.tally.total = r.diagnostics.length

theorem Counted.add {d : Diagnostic} (h : r.Counted)
    (hd : d.id = Tally.unreachableId ∨ d.id = Tally.uselessId) : (r.add d).Counted := by
  have hne : Tally.uselessId ≠ Tally.unreachableId := by decide
  obtain ⟨hunreachable, huseless, htotal⟩ := h
  rw [Tally.total] at htotal
  rcases hd with hd | hd
  · constructor <;> simp [Report.add, Tally.count, Tally.total, hd, hne.symm] <;> omega
  · constructor <;> simp [Report.add, Tally.count, Tally.total, hd, hne] <;> omega

theorem id_diagnosticFor (r : Report) (m : Method) (reachable : List Subject) (subject : Subject) :
    (r.diagnosticFor m reachable subject).id =
      if reachable.any subject.same then Tally.uselessId else Tally.unreachableId := by
  rw [diagnosticFor]
  split <;> rfl

theorem index_diagnosticFor (r : Report) (m : Method) (reachable : List Subject)
    (subject : Subject) : (r.diagnosticFor m reachable subject).index = subject.index m := by
  rw [diagnosticFor]
  split <;> rfl

/-- The diagnostics of an answer. -/
def listed : Except Error (List Diagnostic) → List Diagnostic
  | .ok ds => ds
  | .error _ => []

/-- What a report holds after answers: their diagnostics in order, and how many there are of each
kind and together. -/
structure Records (r : Report) (answers : List (Except Error (List Diagnostic))) : Prop
    extends r.Counted where
  diagnostics : r.diagnostics = answers.flatMap listed

theorem foldl_add (r : Report) (ds : List Diagnostic) :
    (ds.foldl add r).diagnostics = r.diagnostics ++ ds ∧
      (ds.foldl add r).severity = r.severity := by
  induction ds generalizing r with
  | nil => exact ⟨(List.append_nil _).symm, rfl⟩
  | cons d rest ih =>
    obtain ⟨hdiagnostics, hseverity⟩ := ih (r.add d)
    exact ⟨hdiagnostics.trans (List.append_assoc ..), hseverity⟩

theorem Counted.foldl (h : r.Counted)
    (hds : ∀ d ∈ ds, d.id = Tally.unreachableId ∨ d.id = Tally.uselessId) :
    (ds.foldl Report.add r).Counted := by
  induction ds generalizing r with
  | nil => exact h
  | cons d rest ih =>
    obtain ⟨hd, hrest⟩ := List.forall_mem_cons.mp hds
    exact ih (h.add hd) hrest

/-- One more call is one more answer. -/
theorem Records.call {answers : List (Except Error (List Diagnostic))} (h : r.Records answers)
    (c : Call) : (r.call c).1.Records (answers ++ [(r.call c).2]) := by
  cases hanswer : (r.call c).2 with
  | error e =>
    rw [call_error hanswer]
    refine ⟨h.toCounted, h.diagnostics.trans ?_⟩
    rw [List.flatMap_append]
    exact (List.append_nil _).symm
  | ok ds =>
    obtain ⟨hadded, reachable, hds⟩ := call_ok hanswer
    rw [hadded]
    refine ⟨h.toCounted.foldl fun d hd => ?_, ?_⟩
    · rw [hds] at hd
      obtain ⟨subject, -, rfl⟩ := List.mem_map.mp hd
      rw [id_diagnosticFor]
      split
      · exact .inr rfl
      · exact .inl rfl
    · rw [(foldl_add r ds).1, h.diagnostics, List.flatMap_append, List.flatMap_singleton]
      rfl

theorem Records.calls {answers : List (Except Error (List Diagnostic))} (h : r.Records answers)
    (cs : List Call) : (r.calls cs).1.Records (answers ++ (r.calls cs).2) := by
  induction cs generalizing r answers with
  | nil => exact (List.append_nil answers).symm ▸ h
  | cons c rest ih =>
    rw [Report.calls]
    have hrest := ih (h.call c)
    rw [List.append_assoc] at hrest
    exact hrest

theorem severity_call (r : Report) (c : Call) : (r.call c).1.severity = r.severity := by
  cases hanswer : (r.call c).2 with
  | error e => rw [call_error hanswer]
  | ok ds => rw [(call_ok hanswer).1, (foldl_add r ds).2]

theorem calls_answered (r : Report) (cs : List Call) :
    List.Forall₂ (Call.Answered r.severity) cs (r.calls cs).2 := by
  induction cs generalizing r with
  | nil => exact .nil
  | cons c rest ih =>
    have hrest := ih (r.call c).1
    rw [severity_call] at hrest
    exact .cons (call_answered r c) hrest

/-- The diagnostic of a dead statement gives the reason for which it is dead: it is not reached and
stands on a source line, or else it assigns a variable, which is named. -/
structure Explains (m : Method) (nodes : List Node) (i : Nat) (d : Diagnostic) : Prop where
  index : d.index = i
  unreachable : d.id = Tally.unreachableId ↔ .stmt i ∉ nodes
  useless : d.id = Tally.uselessId ↔ .stmt i ∈ nodes
  placed : d.id = Tally.unreachableId →
    ∃ s, m.body[i]? = some s ∧ d.location.line = s.line ∧ 0 < s.line
  named : d.id = Tally.uselessId →
    ∃ s x, m.body[i]? = some s ∧ s.action.defines? = some x ∧
      d.message = "Variable '" ++ x.name ++ "' is assigned a value that is never used"

theorem any_same_node {nodes : List Node} {n : Node} :
    (nodes.map Subject.node).any (Subject.node n).same = true ↔ n ∈ nodes := by
  rw [List.any_map, List.any_eq_true]
  constructor
  · rintro ⟨k, hk, hsame⟩
    exact of_decide_eq_true hsame ▸ hk
  · exact fun hn => ⟨n, hn, decide_eq_true rfl⟩

theorem explains_diagnosticFor {nodes : List Node} {dead : List Nat} {i : Nat}
    (h : s.Verdict m nodes dead) (hi : i ∈ dead) (r : Report) :
    Explains m nodes i (r.diagnosticFor m (nodes.map .node) (.node (.stmt i))) := by
  have hne : Tally.uselessId ≠ Tally.unreachableId := by decide
  obtain ⟨st, hst, hline, hdef⟩ := h.reason hi
  have hid := r.id_diagnosticFor m (nodes.map .node) (.node (.stmt i))
  have hindex := r.index_diagnosticFor m (nodes.map .node) (.node (.stmt i))
  by_cases hn : .stmt i ∈ nodes
  · rw [if_pos (any_same_node.mpr hn)] at hid
    obtain ⟨x, e, hdef⟩ := hdef hn
    refine ⟨hindex, ?_, ?_, fun h => absurd (hid.symm.trans h) hne, fun _ => ?_⟩
    · exact iff_of_false (fun h => hne (hid.symm.trans h)) (not_not_intro hn)
    · exact iff_of_true hid hn
    · refine ⟨st, x, hst, Action.defines?_of_definition? hdef, ?_⟩
      rw [diagnosticFor, if_pos (any_same_node.mpr hn), Subject.place?, Method.stmtAt_of_body hst,
        Action.place?_of_definition? hdef]
      rfl
  · rw [if_neg (mt any_same_node.mp hn)] at hid
    refine ⟨hindex, iff_of_true hid hn, ?_, fun _ => ?_, fun h => absurd (h.symm.trans hid) hne⟩
    · exact iff_of_false (fun h => hne (h.symm.trans hid)) hn
    · refine ⟨st, hst, ?_, hline hn⟩
      rw [diagnosticFor, if_neg (mt any_same_node.mp hn), Subject.line, Method.stmtAt_of_body hst]
      exact Int.max_eq_left (Int.le_of_lt (hline hn))

/-- The dead statements that a verdict keeps, in order. -/
def keptSubjects (dead : List Nat) : List Subject := dead.map fun i => .node (.stmt i)

/-- What a report makes of a verdict: a diagnostic for each dead statement, in order, as from a call
with these statements. -/
theorem addStored_of_verdict {nodes : List Node} {dead : List Nat} (h : s.Verdict m nodes dead)
    (r : Report) : ∃ r' ds, r.addStored m s = .ok (r', ds) ∧
      r.call ⟨m, s, keptSubjects dead, none⟩ = (r', .ok ds) ∧
      r'.diagnostics = r.diagnostics ++ ds ∧ List.Forall₂ (Explains m nodes) dead ds := by
  have hset : reachableSet m s none = .ok (.ok (nodes.map .node)) := by
    rw [reachableSet, storedSet, h.reachable]
    rfl
  have hcall : r.call ⟨m, s, keptSubjects dead, none⟩ =
      (((keptSubjects dead).map (r.diagnosticFor m (nodes.map .node))).foldl add r,
        .ok ((keptSubjects dead).map (r.diagnosticFor m (nodes.map .node)))) := by
    rw [call, hset]
    exact addEach_ok ..
  have hstored : r.addStored m s = r.addDead m s (keptSubjects dead) none := by
    rw [addStored, Store.get, h.deadCode]
    change r.addDead m s ((dead.map Node.stmt).map .node) none = _
    rw [List.map_map]
    rfl
  have hadded : r.addStored m s =
      .ok (((keptSubjects dead).map (r.diagnosticFor m (nodes.map .node))).foldl add r,
        (keptSubjects dead).map (r.diagnosticFor m (nodes.map .node))) := by
    refine hstored.trans ((addDead_of_set (c := ⟨m, s, keptSubjects dead, none⟩) hset r).trans ?_)
    cases dead <;> rfl
  refine ⟨_, _, hadded, hcall, (foldl_add r _).1, ?_⟩
  rw [keptSubjects, List.map_map, List.forall₂_map_right_iff]
  exact List.forall₂_same.mpr fun i hi => explains_diagnosticFor h hi r

/-- The diagnostics of a report and their numbers are those of the calls that did not fail, whatever
the calls are, and a call that fails changes nothing. After the run of a plan with a detection the
dead statements that it keeps are reported once each, by ascending index, for the reason that made
them dead. -/
theorem reports_exact (severity : Severity) :
    (∀ cs : List Call, ∃ r answers, calls { severity } cs = (r, answers) ∧
      List.Forall₂ (Call.Answered severity) cs answers ∧ r.Records answers) ∧
    (∀ r : Report, ∀ c e, (r.call c).2 = .error e → (r.call c).1 = r) ∧
    ∀ p P, Pipeline.ofPlan p = .ok P → (∃ e ∈ p, e.id = CodeText.ofString Task.deadCode.id) →
      ∀ m s s', (P.run m s).state = (s', none) → ∀ r : Report, ∃ nodes dead r' ds,
        s'.find? Task.reachableKey = some (.nodes nodes) ∧
        s'.find? Task.deadCode.id = some (.positions dead) ∧
        r.addStored m s' = .ok (r', ds) ∧
        r.call ⟨m, s', dead.map fun i => .node (.stmt i), none⟩ = (r', .ok ds) ∧
        r'.diagnostics = r.diagnostics ++ ds ∧
        List.Forall₂ (Explains m nodes) dead ds ∧ (ds.map (·.index)).Pairwise (· < ·) := by
  refine ⟨fun cs => ?_, fun r c e => call_error, ?_⟩
  · have hfresh : Records { severity } [] := ⟨⟨rfl, rfl, rfl⟩, rfl⟩
    exact ⟨_, _, rfl, calls_answered { severity } cs, hfresh.calls cs⟩
  · intro p P hP hp m s s' hrun r
    obtain ⟨rfl, herror⟩ := Prod.mk.inj hrun
    obtain ⟨nodes, dead, hverdict⟩ := Pipeline.ofPlan_verdict hP hp herror
    obtain ⟨r', ds, hadded, hcall, hdiagnostics, hexplains⟩ := addStored_of_verdict hverdict r
    refine ⟨nodes, dead, r', ds, hverdict.reachable, hverdict.deadCode, hadded, hcall, hdiagnostics,
      hexplains, ?_⟩
    have hindices : List.Forall₂ Eq (ds.map (·.index)) (dead.map fun i : Nat => (i : Int)) := by
      rw [List.forall₂_map_left_iff, List.forall₂_map_right_iff]
      exact hexplains.flip.imp fun _ _ h => h.index
    rw [List.forall₂_eq_eq_eq] at hindices
    rw [hindices, List.pairwise_map]
    exact hverdict.ascending.imp Int.ofNat_lt.mpr

/-- After a call that lacks the reached nodes and one that is given none, the run of the standard
plan reports a statement that a branch skips and a sum that is computed for nothing. -/
theorem guarded_reports : ∃ P s' r answers nodes r' ds,
    Pipeline.ofPlan Plan.standard = .ok P ∧ (P.run Graph.guarded .empty).state = (s', none) ∧
    calls {} [⟨Graph.guarded, .empty, [.node (.stmt 3)], none⟩,
      ⟨Graph.guarded, .empty, [.node (.stmt 3)], some []⟩] =
        (r, .error (.noReachableSet "guard") :: answers) ∧
    r.Records (.error (.noReachableSet "guard") :: answers) ∧
    s'.find? Task.reachableKey = some (.nodes nodes) ∧
    r.addStored Graph.guarded s' = .ok (r', ds) ∧ r'.diagnostics = r.diagnostics ++ ds ∧
    List.Forall₂ (Explains Graph.guarded nodes) [3, 4] ds := by
  obtain ⟨hcalls, -, hplans⟩ := reports_exact .style
  obtain ⟨r, _, hr, hanswered, hrecords⟩ :=
    hcalls [⟨Graph.guarded, .empty, [.node (.stmt 3)], none⟩,
      ⟨Graph.guarded, .empty, [.node (.stmt 3)], some []⟩]
  obtain ⟨_, answers, hfirst, -, rfl⟩ := List.forall₂_cons_left_iff.mp hanswered
  cases hfirst.missing rfl rfl
  obtain ⟨P, s', hP, hrun, hfound⟩ : ∃ P s', Pipeline.ofPlan Plan.standard = .ok P ∧
      (P.run Graph.guarded .empty).state = (s', none) ∧
      (s'.find? Task.deadCode.id).bind Artifact.positions? = some [3, 4] := by
    refine ⟨_, _, rfl, Prod.ext rfl (Option.isNone_iff_eq_none.mp ?_), ?_⟩ <;> decide +kernel
  obtain ⟨nodes, dead, r', ds, hnodes, hdead, hadded, -, hdiagnostics, hexplains, -⟩ :=
    hplans _ P hP ⟨⟨"deadcode", {}⟩, by simp [Plan.standard], rfl⟩ Graph.guarded .empty s' hrun r
  rw [hdead] at hfound
  cases hfound
  exact ⟨P, s', r, answers, nodes, r', ds, hP, hrun, hr, hrecords, hnodes, hadded, hdiagnostics,
    hexplains⟩

end Report

end FlowLint
