import FlowLint.Plan.Entry
import FlowLint.Proofs.Plan.Strategy

/-! # Values that are plans

A plan is an array of entries. An entry is an object that names an analysis, with an object of
options if it has any, under the names of options and with values of theirs. What is read from a
value is what it says, and the code of an error tells what is wrong with it.
-/
namespace FlowLint

theorem eq_of_rel {α β : Type} {R : α → β → Prop} {a? : Option α} {b? c? : Option β}
    (hb : Option.Rel R a? b?) (hc : Option.Rel R a? c?)
    (h : ∀ a b c, R a b → R a c → b = c) : b? = c? := by
  cases hb with
  | none =>
    cases hc
    rfl
  | some hb =>
    obtain ⟨hc⟩ := hc
    exact congrArg some (h _ _ _ hb hc)

/-- The members of the options object of an entry, none where there is no such object. -/
def Json.optionMembers (item : Json) : List (CodeText × Json) :=
  match item.member? "options" with
  | some (.obj members) => members
  | _ => []

/-- Members that are options, under the names of options and with values that an option may have. -/
structure Json.AreOptions (members : List (CodeText × Json)) : Prop where
  known : ∀ m ∈ members, m.1 ∈ Options.names.map CodeText.ofString
  strategy : ∀ j ∈ lookupMember "strategy" members, ∃ t s, j = .str t ∧ Strategy.IsNamed s t
  maxIterations : ∀ j ∈ lookupMember "max-iterations" members, ∃ n, j = .int n ∧ 0 < n
  dot : ∀ j ∈ lookupMember "dot" members, ∃ b, j = .bool b

/-- An object that names an analysis, and whose options are an object if it has any. -/
structure Json.HasEntryShape (item : Json) : Prop where
  id : ∃ t : CodeText, item.member? "id" = some (.str t) ∧ t.points ≠ []
  options : ∀ j ∈ item.member? "options", ∃ members, j = .obj members

structure Json.IsEntry (item : Json) : Prop extends item.HasEntryShape where
  areOptions : AreOptions item.optionMembers

/-- Options that hold the values of the members under their names, and no others. -/
structure Options.Hold (o : Options) (members : List (CodeText × Json)) : Prop where
  known : ∀ m ∈ members, m.1 ∈ names.map CodeText.ofString
  strategy : Option.Rel (fun j s => ∃ t, j = .str t ∧ Strategy.IsNamed s t)
    (Json.lookupMember "strategy" members) o.strategy?
  maxIterations : Option.Rel (fun j (n : Nat) => j = .int n)
    (Json.lookupMember "max-iterations" members) o.maxIterations?
  dot : Option.Rel (fun j b => j = .bool b) (Json.lookupMember "dot" members) o.dot?

/-- What options answer for members: the value of a member that is there, and otherwise the value
that is taken by default. -/
structure Options.Answer (o : Options) (members : List (CodeText × Json)) : Prop where
  strategy : (Json.lookupMember "strategy" members = none ∧ o.strategy = .rpo) ∨
    ∃ t, Json.lookupMember "strategy" members = some (.str t) ∧ o.strategy.IsNamed t
  maxIterations : (Json.lookupMember "max-iterations" members = none ∧
    o.maxIterations = 1000000) ∨
    Json.lookupMember "max-iterations" members = some (.int o.maxIterations)
  dot : (Json.lookupMember "dot" members = none ∧ o.dot = false) ∨
    Json.lookupMember "dot" members = some (.bool o.dot)

namespace Options
variable {o o' : Options} {members : List (CodeText × Json)}

theorem Hold.answer (h : o.Hold members) : o.Answer members := by
  obtain ⟨s?, n?, b?, hpos⟩ := o
  obtain ⟨-, hs, hn, hb⟩ := h
  constructor
  · generalize Json.lookupMember "strategy" members = x at hs ⊢
    rcases hs with ⟨t, rfl, hs⟩ | _
    · exact .inr ⟨t, rfl, hs⟩
    · exact .inl ⟨rfl, rfl⟩
  · generalize Json.lookupMember "max-iterations" members = x at hn ⊢
    rcases hn with ⟨rfl⟩ | _
    · exact .inr rfl
    · exact .inl ⟨rfl, rfl⟩
  · generalize Json.lookupMember "dot" members = x at hb ⊢
    rcases hb with ⟨rfl⟩ | _
    · exact .inr rfl
    · exact .inl ⟨rfl, rfl⟩

theorem Hold.areOptions (h : o.Hold members) : Json.AreOptions members := by
  obtain ⟨s?, n?, b?, hpos⟩ := o
  obtain ⟨hnames, hs, hn, hb⟩ := h
  refine ⟨hnames, fun j hj => ?_, fun j hj => ?_, fun j hj => ?_⟩
  · rw [Option.mem_def.mp hj] at hs
    obtain ⟨t, rfl, hs⟩ := hs
    exact ⟨t, _, rfl, hs⟩
  · rw [Option.mem_def.mp hj] at hn
    obtain ⟨rfl⟩ := hn
    exact ⟨_, rfl, Int.natCast_pos.mpr (hpos _ rfl)⟩
  · rw [Option.mem_def.mp hj] at hb
    obtain ⟨rfl⟩ := hb
    exact ⟨_, rfl⟩

/-- Options are determined by the members whose values they hold. -/
theorem Hold.unique (h : o.Hold members) (h' : o'.Hold members) : o = o' := by
  obtain ⟨s?, n?, b?, hpos⟩ := o
  obtain ⟨s?', n?', b?', hpos'⟩ := o'
  obtain ⟨-, hs, hn, hb⟩ := h
  obtain ⟨-, hs', hn', hb'⟩ := h'
  obtain rfl : s? = s?' := by
    refine eq_of_rel hs hs' ?_
    rintro j s s' ⟨t, rfl, hs⟩ ⟨_, ⟨⟩, hs'⟩
    exact hs.unique hs'
  obtain rfl : n? = n?' := by
    refine eq_of_rel hn hn' ?_
    rintro j n n' rfl heq
    exact Int.ofNat_inj.mp (Json.int.inj heq)
  obtain rfl : b? = b?' := by
    refine eq_of_rel hb hb' ?_
    rintro j b b' rfl heq
    exact Json.bool.inj heq
  rfl

end Options

namespace PlanEntry
variable {id : CodeText} {members : List (CodeText × Json)}

theorem readId_settles (j : Json) : Settles .invalidPlan
    (∃ t : CodeText, j = .str t ∧ t.points ≠ []) (fun t => j = .str t) (readId j) := by
  unfold readId
  split
  · next t =>
    split
    · next hempty =>
      refine .error ?_ rfl
      rintro ⟨_, ⟨⟩, hne⟩
      exact hne (List.isEmpty_iff.mp hempty)
    · next hfull => exact .ok ⟨t, rfl, fun h => hfull (List.isEmpty_iff.mpr h)⟩ rfl
  · next hj => exact .error (fun ⟨t, ht, _⟩ => hj t ht) rfl

theorem checkNames_settles (id : CodeText) (members : List (CodeText × Json)) :
    Settles .invalidOption (∀ m ∈ members, m.1 ∈ Options.names.map CodeText.ofString)
      (fun _ => True) (checkNames id members) := by
  have hunknown : ((members.map (·.1)).filter
      (· ∉ Options.names.map CodeText.ofString)).isEmpty = true ↔
      ∀ m ∈ members, m.1 ∈ Options.names.map CodeText.ofString := by
    simp only [List.isEmpty_iff, List.filter_eq_nil_iff, List.forall_mem_map, decide_eq_true_eq,
      not_not]
  rw [checkNames, ← hunknown]
  split
  · next h => exact .ok h trivial
  · next h => exact .error h rfl

theorem readStrategy_settles (id : CodeText) (j? : Option Json) : Settles .invalidOption
    (∀ j ∈ j?, ∃ t s, j = .str t ∧ Strategy.IsNamed s t)
    (Option.Rel (fun j s => ∃ t, j = .str t ∧ Strategy.IsNamed s t) j?) (readStrategy id j?) := by
  unfold readStrategy
  split
  · exact .ok nofun .none
  · next t =>
    have hP : (∀ j ∈ some (Json.str t), ∃ t s, j = .str t ∧ Strategy.IsNamed s t) ↔
        ∃ s : Strategy, s.IsNamed t := by simp
    rw [hP]
    exact (Strategy.ofName_settles t).map fun s hs => .some ⟨t, rfl, hs⟩
  · next j hj =>
    refine .error (fun h => ?_) rfl
    obtain ⟨t, s, rfl, -⟩ := h j rfl
    exact hj t rfl

theorem readMaxIterations_settles (id : CodeText) (j? : Option Json) : Settles .invalidOption
    (∀ j ∈ j?, ∃ n, j = .int n ∧ 0 < n)
    (fun n? => Option.Rel (fun j (n : Nat) => j = .int n) j? n?.1) (readMaxIterations id j?) := by
  unfold readMaxIterations
  split
  · exact .ok nofun .none
  · next n =>
    split
    · next hpos =>
      refine .ok (by simpa using hpos) (.some ?_)
      rw [Int.toNat_of_nonneg (by omega)]
    · next hneg => exact .error (by simpa using hneg) rfl
  · next j hj =>
    refine .error (fun h => ?_) rfl
    obtain ⟨n, rfl, -⟩ := h j rfl
    exact hj n rfl

theorem readDot_settles (id : CodeText) (j? : Option Json) : Settles .invalidOption
    (∀ j ∈ j?, ∃ b, j = .bool b) (Option.Rel (fun j b => j = .bool b) j?) (readDot id j?) := by
  unfold readDot
  split
  · exact .ok nofun .none
  · next b => exact .ok (by simp) (.some rfl)
  · next j hj =>
    refine .error (fun h => ?_) rfl
    obtain ⟨b, rfl⟩ := h j rfl
    exact hj b rfl

/-- An entry that a value is: it has its name, and its options hold the values of the options. -/
structure Reads (item : Json) (e : PlanEntry) : Prop where
  shape : item.HasEntryShape
  id : item.member? "id" = some (.str e.id)
  options : e.options.Hold item.optionMembers

theorem make_settles {t : CodeText} (ht : t.points ≠ []) (members : List (CodeText × Json)) :
    Settles .invalidOption (Json.AreOptions members)
      (fun e => e.id = t ∧ e.options.Hold members) (make (.str t) members) := by
  have hid : readId (.str t) = .ok t := if_neg fun h => ht (List.isEmpty_iff.mp h)
  rw [make, hid]
  refine (checkNames_settles t members).bind (·.known) fun _ hnames _ => ?_
  refine (readStrategy_settles t _).bind (·.strategy) fun s hs hstrategy => ?_
  refine (readMaxIterations_settles t _).bind (·.maxIterations) fun n hn hmax => ?_
  refine (readDot_settles t _).bind (·.dot) fun b hb hdot => ?_
  exact .ok ⟨hnames, hs, hn, hb⟩ ⟨rfl, hnames, hstrategy, hmax, hdot⟩

/-- A value of the right shape is an entry exactly if its options are options. -/
theorem ofJson_settles {item : Json} (h : item.HasEntryShape) :
    Settles .invalidOption (Json.AreOptions item.optionMembers) (Reads item) (ofJson item) := by
  obtain ⟨t, ht, hne⟩ := h.id
  have hmake := make_settles hne item.optionMembers
  have hreads : ofJson item = make (.str t) item.optionMembers := by
    rw [ofJson, ht, Json.optionMembers]
    cases ho : item.member? "options" with
    | none => rfl
    | some o =>
      obtain ⟨members, rfl⟩ := h.options o ho
      rfl
  rw [hreads]
  exact hmake.imp fun e he => ⟨h, he.1 ▸ ht, he.2⟩

theorem ofJson_misshapen {item : Json} (h : ¬item.HasEntryShape) :
    ∃ e, ofJson item = .error e ∧ e.code? = some .invalidPlan := by
  rw [ofJson]
  split
  · exact ⟨_, rfl, rfl⟩
  · next id hid =>
    have hmake : ∀ members, (∀ o ∈ item.member? "options", ∃ members, o = .obj members) →
        ∃ e, make id members = .error e ∧ e.code? = some .invalidPlan := by
      intro members ho
      have hread := readId_settles id
      rw [make]
      cases hr : readId id with
      | ok t =>
        have hok := hread.exists_ok_iff.mp ⟨t, hr⟩
        obtain ⟨t, rfl, hne⟩ := hok
        exact absurd ⟨⟨t, hid, hne⟩, ho⟩ h
      | error e => exact ⟨e, rfl, (hr ▸ hread).of_error.2⟩
    split
    · next ho => exact hmake _ (by simp [ho])
    · next members ho => exact hmake _ (by simp [ho])
    · exact ⟨_, rfl, rfl⟩

theorem Reads.isEntry {item : Json} {e : PlanEntry} (h : Reads item e) : item.IsEntry :=
  ⟨h.shape, h.options.areOptions⟩

/-- The entry that a value is read as is the one that it is. -/
theorem ofJson_eq_ok_iff {item : Json} {e : PlanEntry} : ofJson item = .ok e ↔ Reads item e := by
  constructor
  · intro he
    by_cases hshape : item.HasEntryShape
    · exact (he ▸ ofJson_settles hshape).of_ok
    · obtain ⟨err, herr, -⟩ := ofJson_misshapen hshape
      cases he.symm.trans herr
  · intro h
    obtain ⟨e', he'⟩ := (ofJson_settles h.shape).exists_ok_iff.mpr h.options.areOptions
    have hread := (he' ▸ ofJson_settles h.shape).of_ok
    have hid := Json.str.inj (Option.some.inj (hread.id.symm.trans h.id))
    have hoptions := hread.options.unique h.options
    obtain ⟨id, o⟩ := e
    obtain ⟨id', o'⟩ := e'
    cases hid
    cases hoptions
    exact he'

theorem exists_ofJson_iff {item : Json} : (∃ e, ofJson item = .ok e) ↔ item.IsEntry := by
  constructor
  · rintro ⟨e, he⟩
    exact (ofJson_eq_ok_iff.mp he).isEntry
  · intro h
    exact (ofJson_settles h.toHasEntryShape).exists_ok_iff.mpr h.areOptions

/-- The code of an error tells whether the shape of a value is at fault or its options are. -/
theorem ofJson_error {item : Json} {err : Error} (h : ofJson item = .error err) :
    (¬item.HasEntryShape ∧ err.code? = some .invalidPlan) ∨
      item.HasEntryShape ∧ err.code? = some .invalidOption := by
  by_cases hshape : item.HasEntryShape
  · exact .inr ⟨hshape, (h ▸ ofJson_settles hshape).of_error.2⟩
  · obtain ⟨err', herr, hcode⟩ := ofJson_misshapen hshape
    cases h.symm.trans herr
    exact .inl ⟨hshape, hcode⟩

end PlanEntry

namespace Plan
variable {items : List Json} {p : Plan}

theorem ofJson_eq_ok_iff {j : Json} :
    ofJson j = .ok p ↔ ∃ items, j = .arr items ∧ List.Forall₂ PlanEntry.Reads items p := by
  cases j with
  | arr items =>
    rw [ofJson, mapM_eq_ok_iff]
    simp only [PlanEntry.ofJson_eq_ok_iff, Json.arr.injEq, exists_eq_left']
  | null | bool | int | real | str | obj => exact ⟨nofun, nofun⟩

theorem exists_ofJson_iff {j : Json} :
    (∃ p, ofJson j = .ok p) ↔ ∃ items, j = .arr items ∧ ∀ item ∈ items, item.IsEntry := by
  constructor
  · rintro ⟨p, hp⟩
    obtain ⟨items, rfl, hreads⟩ := ofJson_eq_ok_iff.mp hp
    refine ⟨items, rfl, fun item hitem => ?_⟩
    obtain ⟨e, -, he⟩ := (mem_of_forall₂ hreads).1 item hitem
    exact he.isEntry
  · rintro ⟨items, rfl, hitems⟩
    exact exists_mapM fun item hitem => PlanEntry.exists_ofJson_iff.mpr (hitems item hitem)

/-- An array is refused for its first item that is no entry. -/
theorem ofJson_arr_error {err : Error} (h : ofJson (.arr items) = .error err) :
    ∃ front bad back, items = front ++ bad :: back ∧ (∀ item ∈ front, item.IsEntry) ∧
      ¬bad.IsEntry ∧ PlanEntry.ofJson bad = .error err := by
  obtain ⟨front, bad, back, hitems, hfront, hbad⟩ := first_error_of_mapM h
  refine ⟨front, bad, back, hitems, fun item hitem => ?_, fun hentry => ?_, hbad⟩
  · exact PlanEntry.exists_ofJson_iff.mp (hfront item hitem)
  · obtain ⟨e, he⟩ := PlanEntry.exists_ofJson_iff.mpr hentry
    cases hbad.symm.trans he

theorem group_of_ofJson_error {j : Json} {err : Error} (h : ofJson j = .error err) :
    err.code?.map ErrorCode.group = some .configuration := by
  cases j with
  | arr items =>
    obtain ⟨-, bad, -, -, -, -, hbad⟩ := ofJson_arr_error h
    rcases PlanEntry.ofJson_error hbad with ⟨-, hcode⟩ | ⟨-, hcode⟩ <;> rw [hcode] <;> rfl
  | null | bool | int | real | str | obj =>
    cases h
    rfl

/-- A plan is read from the arrays of entries and from nothing else. It has the entries in order,
and their options answer what the values give. Any other value is refused as a whole or for its
first item that is no entry, and then for the shape of that rather than for its options. -/
theorem ofJson_exact (j : Json) :
    ((∃ p, ofJson j = .ok p) ↔ ∃ items, j = .arr items ∧ ∀ item ∈ items, item.IsEntry) ∧
    (∀ p, ofJson j = .ok p ↔ ∃ items, j = .arr items ∧ List.Forall₂ PlanEntry.Reads items p) ∧
    (∀ items p, j = .arr items → ofJson j = .ok p → List.Forall₂ (fun item e =>
      item.member? "id" = some (.str e.id) ∧ e.options.Answer item.optionMembers) items p) ∧
    ∀ err, ofJson j = .error err → err.code?.map ErrorCode.group = some .configuration ∧
      ((∀ items, j ≠ .arr items) ∧ err.code? = some .invalidPlan ∨
      ∃ front bad back, j = .arr (front ++ bad :: back) ∧ (∀ item ∈ front, item.IsEntry) ∧
        ¬bad.IsEntry ∧ PlanEntry.ofJson bad = .error err ∧
        (¬bad.HasEntryShape ∧ err.code? = some .invalidPlan ∨
          bad.HasEntryShape ∧ err.code? = some .invalidOption)) := by
  refine ⟨exists_ofJson_iff, fun p => ofJson_eq_ok_iff, ?_, fun err herr => ?_⟩
  · rintro items p rfl hp
    obtain ⟨_, ⟨⟩, hreads⟩ := ofJson_eq_ok_iff.mp hp
    exact hreads.imp fun item e he => ⟨he.id, he.options.answer⟩
  · refine ⟨group_of_ofJson_error herr, ?_⟩
    cases j with
    | arr items =>
      obtain ⟨front, bad, back, rfl, hfront, hnot, hbad⟩ := ofJson_arr_error herr
      exact .inr ⟨front, bad, back, rfl, hfront, hnot, hbad, PlanEntry.ofJson_error hbad⟩
    | null | bool | int | real | str | obj =>
      cases herr
      exact .inl ⟨nofun, rfl⟩

/-- Both the name and an option are wrong here, and the name counts. -/
example : (ofJson (.arr [.obj [("id", .str "cfg"), ("options", .obj [("strategy", .str "\tRpo ")])],
    .obj [("id", .str ""), ("options", .obj [("dot", .int 1)])]])).map List.length =
    .error (.badAnalysisId (.str "")) := by
  rfl

end Plan

end FlowLint
