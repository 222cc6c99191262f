import FlowLint.Proofs.Dataflow.Visits
import Mathlib.Data.Finset.Basic
import Mathlib.Data.List.Sort
import Mathlib.Data.Prod.Lex

/-! # Worklists with a table of members

A worklist can keep its members twice: in a table, which says what is a member, and in a queue or a
heap, which says what comes next. Pushes and pops change both, and what is done depends on one of
them at a time. They never part: step by step such an agenda does what a worklist does that keeps
one list of members. So the solver's iterations are pops from an agenda, and it has converged when
the agenda is empty. Of a heap only this is used, that an entry of least key is taken from it.
-/
namespace FlowLint

/-- A store of entries from which one of least key is taken. -/
structure MinHeap (κ α : Type) [LE κ] where
  Heap : Type
  empty : Heap
  push : Heap → κ × α → Heap
  pop? : Heap → Option ((κ × α) × Heap)
  entries : Heap → Multiset (κ × α)
  entries_empty : entries empty = 0
  entries_push : ∀ h e, entries (push h e) = e ::ₘ entries h
  entries_pop : ∀ {h e h'}, pop? h = some (e, h') → entries h = e ::ₘ entries h'
  entries_of_none : ∀ {h}, pop? h = none → entries h = 0
  least : ∀ {h e h'}, pop? h = some (e, h') → ∀ f ∈ entries h, e.1 ≤ f.1

/-- Entries kept in ascending order. -/
def MinHeap.sorted (κ α : Type) [LinearOrder κ] : MinHeap κ α where
  Heap := { l : List (κ × α) // l.Pairwise fun e f => e.1 ≤ f.1 }
  empty := ⟨[], .nil⟩
  push h e := ⟨h.1.orderedInsert (fun e f => e.1 ≤ f.1) e, h.2.orderedInsert e _⟩
  pop? h :=
    match h with
    | ⟨[], _⟩ => none
    | ⟨e :: l, hl⟩ => some (e, ⟨l, hl.of_cons⟩)
  entries h := h.1
  entries_empty := rfl
  entries_push h e := Multiset.coe_eq_coe.mpr (List.perm_orderedInsert _ e h.1)
  entries_pop := by
    rintro ⟨l, hl⟩ e h' hpop
    cases l with
    | nil => cases hpop
    | cons f l => cases hpop; rfl
  entries_of_none := by
    rintro ⟨l, hl⟩ hpop
    cases l with
    | nil => rfl
    | cons f l => cases hpop
  least := by
    rintro ⟨l, hl⟩ e h' hpop f hf
    cases l with
    | nil => cases hpop
    | cons e l =>
      cases hpop
      rcases List.mem_cons.mp hf with rfl | hf
      · exact le_rfl
      · exact (List.pairwise_cons.mp hl).1 f hf

/-- A rank, and behind it the number of the push, which no two entries share. -/
abbrev Agenda.Key := ℕ ×ₗ ℕ

structure Agenda {α : Type} (H : MinHeap Agenda.Key α) where
  strategy : Strategy
  rank : α → ℕ
  /-- What is a member. -/
  table : Finset α
  /-- The members in the order in which they came, if the strategy goes by it. -/
  queue : List α
  /-- The members by rank, if the strategy goes by that. -/
  heap : H.Heap
  /-- How often the heap was pushed. -/
  count : ℕ

namespace Agenda
variable {α : Type} [DecidableEq α] {H : MinHeap Key α}

def empty (s : Strategy) (rank : α → ℕ) : Agenda H := ⟨s, rank, ∅, [], H.empty, 0⟩

def push (q : Agenda H) (a : α) : Agenda H :=
  if a ∈ q.table then q
  else
    match q.strategy with
    | .rpo =>
      { q with
        table := insert a q.table
        count := q.count + 1
        heap := H.push q.heap (toLex (q.rank a, q.count + 1), a) }
    | _ => { q with table := insert a q.table, queue := q.queue ++ [a] }

/-- Takes what comes next from the queue or the heap. -/
def take? (q : Agenda H) : Option (α × Agenda H) :=
  match q.strategy with
  | .fifo =>
    match q.queue with
    | [] => none
    | a :: rest => some (a, { q with queue := rest })
  | .lifo => q.queue.getLast?.map fun a => (a, { q with queue := q.queue.dropLast })
  | .rpo => (H.pop? q.heap).map fun p => (p.1.2, { q with heap := p.2 })

def pop? (q : Agenda H) : Option (α × Agenda H) :=
  q.take?.map fun p => (p.1, { p.2 with table := p.2.table.erase p.1 })

def isEmpty (q : Agenda H) : Bool := decide (q.table = ∅)

/-- What the queue or the heap holds. -/
def held (q : Agenda H) : Multiset α :=
  match q.strategy with
  | .rpo => (H.entries q.heap).map Prod.snd
  | _ => q.queue

/-- What pushes and pops lead to. -/
abbrev After (H : MinHeap Key α) (s : Strategy) (rank : α → ℕ) :
    List (Event α) → Agenda H → Prop :=
  History (empty s rank) push pop?

/-! ## What is held -/

/-- Entries of a heap in the order in which they were pushed. -/
structure Entered (rank : α → ℕ) (count : ℕ) (es : List (Key × α)) : Prop where
  ranked : ∀ e ∈ es, (ofLex e.1).1 = rank e.2
  counted : ∀ e ∈ es, (ofLex e.1).2 ≤ count
  ascending : es.Pairwise fun e f => (ofLex e.1).2 < (ofLex f.1).2

variable {rank : α → ℕ} {count : ℕ} {entries es₁ es₂ : List (Key × α)} {e : Key × α}

omit [DecidableEq α] in
theorem Entered.sublist (h : Entered rank count es₂) (hsub : es₁.Sublist es₂) :
    Entered rank count es₁ where
  ranked e he := h.ranked e (hsub.subset he)
  counted e he := h.counted e (hsub.subset he)
  ascending := h.ascending.sublist hsub

omit [DecidableEq α] in
theorem Entered.concat (h : Entered rank count entries) (a : α) :
    Entered rank (count + 1) (entries ++ [(toLex (rank a, count + 1), a)]) := by
  refine ⟨fun e he => ?_, fun e he => ?_, ?_⟩
  · rcases List.mem_append.mp he with he | he
    · exact h.ranked e he
    · rw [List.mem_singleton.mp he, ofLex_toLex]
  · rcases List.mem_append.mp he with he | he
    · exact Nat.le_succ_of_le (h.counted e he)
    · rw [List.mem_singleton.mp he, ofLex_toLex]
  · refine List.pairwise_append.mpr ⟨h.ascending, List.pairwise_singleton _ _, ?_⟩
    intro e he f hf
    rw [List.mem_singleton.mp hf, ofLex_toLex]
    exact Nat.lt_succ_of_le (h.counted e he)

omit [DecidableEq α] in
/-- The entry of the least key is the first of those with the least rank. -/
theorem Entered.takes (h : Entered rank count (es₁ ++ e :: es₂))
    (hleast : ∀ f ∈ es₁ ++ e :: es₂, e.1 ≤ f.1) :
    Worklist.Takes .rpo rank (es₁.map Prod.snd) e.2 (es₂.map Prod.snd) := by
  have he : (ofLex e.1).1 = rank e.2 := h.ranked e (by simp)
  have hkey : ∀ f ∈ es₁ ++ e :: es₂, rank e.2 < rank f.2 ∨
      rank e.2 = rank f.2 ∧ (ofLex e.1).2 ≤ (ofLex f.1).2 := by
    intro f hf
    rw [← he, ← h.ranked f hf]
    exact Prod.Lex.le_iff.mp (hleast f hf)
  refine ⟨?_, ?_⟩
  · rw [List.forall_mem_map]
    intro f hf
    have hbefore : (ofLex f.1).2 < (ofLex e.1).2 :=
      (List.pairwise_append.mp h.ascending).2.2 f hf e List.mem_cons_self
    exact (hkey f (by simp [hf])).resolve_right fun hsame => hsame.2.not_gt hbefore
  · rw [List.forall_mem_map]
    intro f hf
    rcases hkey f (by simp [hf]) with hlt | ⟨heq, -⟩
    · exact hlt.le
    · exact heq.le

/-- The queue or the heap holds just what is in the list, which is in the order in which it came. -/
def Holds (q : Agenda H) (l : List α) : Prop :=
  match q.strategy with
  | .rpo => ∃ entries : List (Key × α), H.entries q.heap = entries ∧
      Entered q.rank q.count entries ∧ entries.map Prod.snd = l
  | _ => q.queue = l

variable {q q' : Agenda H} {l : List α} {a : α}

omit [DecidableEq α] in
theorem Holds.held_eq (h : q.Holds l) : q.held = l := by
  obtain ⟨s, rank, table, queue, heap, count⟩ := q
  cases s with
  | fifo => exact congrArg _ h
  | lifo => exact congrArg _ h
  | rpo =>
    obtain ⟨entries, hentries, -, rfl⟩ := h
    exact (congrArg _ hentries).trans (Multiset.map_coe _ _)

omit [DecidableEq α] in
/-- Nothing is taken only where nothing is held, and else what the strategy puts first. -/
theorem Holds.take? (h : q.Holds l) : (l = [] ∧ q.take? = none) ∨
    ∃ l₁ a l₂ queue heap, l = l₁ ++ a :: l₂ ∧ Worklist.Takes q.strategy q.rank l₁ a l₂ ∧
      q.take? = some (a, { q with queue := queue, heap := heap }) ∧
      Holds { q with queue := queue, heap := heap } (l₁ ++ l₂) := by
  obtain ⟨s, rank, table, queue, heap, count⟩ := q
  cases s with
  | fifo =>
    obtain rfl : queue = l := h
    cases queue with
    | nil => exact .inl ⟨rfl, rfl⟩
    | cons a rest => exact .inr ⟨[], a, rest, rest, heap, rfl, rfl, rfl, rfl⟩
  | lifo =>
    obtain rfl : queue = l := h
    rcases List.eq_nil_or_concat queue with rfl | ⟨l₁, a, rfl⟩
    · exact .inl ⟨rfl, rfl⟩
    · rw [List.concat_eq_append]
      refine .inr ⟨l₁, a, [], l₁, heap, rfl, rfl, ?_, (List.append_nil l₁).symm⟩
      simp [Agenda.take?]
  | rpo =>
    obtain ⟨entries, hentries, hentered, rfl⟩ := h
    cases hpop : H.pop? heap with
    | none =>
      have hnil : entries = [] :=
        Multiset.coe_eq_zero _ |>.mp (hentries.symm.trans (H.entries_of_none hpop))
      exact .inl ⟨by rw [hnil, List.map_nil], by simp [Agenda.take?, hpop]⟩
    | some p =>
      obtain ⟨e, heap'⟩ := p
      have hcons : e ::ₘ H.entries heap' = entries := (H.entries_pop hpop).symm.trans hentries
      have hleast : ∀ f ∈ entries, e.1 ≤ f.1 := fun f hf =>
        H.least hpop f (hentries ▸ Multiset.mem_coe.mpr hf)
      have he : e ∈ entries := Multiset.mem_coe.mp (hcons ▸ Multiset.mem_cons_self e _)
      obtain ⟨es₁, es₂, rfl⟩ := List.append_of_mem he
      have hrest : H.entries heap' = (es₁ ++ es₂ : List (Key × α)) := by
        refine (Multiset.cons_inj_right e).mp (hcons.trans ?_)
        exact Multiset.coe_eq_coe.mpr List.perm_middle
      have hsub : (es₁ ++ es₂).Sublist (es₁ ++ e :: es₂) :=
        (List.sublist_cons_self e es₂).append_left es₁
      refine .inr ⟨es₁.map Prod.snd, e.2, es₂.map Prod.snd, queue, heap', List.map_append ..,
        hentered.takes hleast, by simp [Agenda.take?, hpop], ?_⟩
      exact ⟨es₁ ++ es₂, hrest, hentered.sublist hsub, List.map_append ..⟩

theorem Holds.push (h : q.Holds l) (ha : a ∉ q.table) : (q.push a).Holds (l ++ [a]) := by
  obtain ⟨s, rank, table, queue, heap, count⟩ := q
  rw [Agenda.push, if_neg ha]
  cases s with
  | fifo => exact congrArg (· ++ [a]) h
  | lifo => exact congrArg (· ++ [a]) h
  | rpo =>
    obtain ⟨entries, hentries, hentered, rfl⟩ := h
    refine ⟨entries ++ [(toLex (rank a, count + 1), a)], ?_, hentered.concat a, List.map_append ..⟩
    rw [H.entries_push, hentries]
    exact Multiset.coe_eq_coe.mpr (List.perm_append_singleton _ entries).symm

theorem push_eq (q : Agenda H) (a : α) : (q.push a).strategy = q.strategy ∧
    (q.push a).rank = q.rank ∧ (q.push a).table = insert a q.table := by
  rw [push]
  split
  · next ha => exact ⟨rfl, rfl, (Finset.insert_eq_of_mem ha).symm⟩
  · split <;> exact ⟨rfl, rfl, rfl⟩

/-! ## In step with one list of members -/

/-- The table and what is held are the members of a worklist. -/
structure Tracks (q : Agenda H) (w : Worklist α) : Prop where
  strategy_eq : w.strategy = q.strategy
  rank_eq : w.rank = q.rank
  table_eq : q.table.val = w.members
  holds : q.Holds w.members

variable {w w' : Worklist α} {s : Strategy} {es : List (Event α)}

namespace Tracks

omit [DecidableEq α] in
theorem mem_iff (h : q.Tracks w) (a : α) : a ∈ q.table ↔ a ∈ w.members := by
  rw [← Finset.mem_val, h.table_eq, Multiset.mem_coe]

omit [DecidableEq α] in
theorem held_eq (h : q.Tracks w) : q.held = q.table.val := h.holds.held_eq.trans h.table_eq.symm

theorem isEmpty_eq (h : q.Tracks w) : q.isEmpty = w.isEmpty := by
  rw [Bool.eq_iff_iff, Agenda.isEmpty, Worklist.isEmpty, decide_eq_true_eq, List.isEmpty_iff,
    ← Finset.val_eq_zero, h.table_eq, Multiset.coe_eq_zero]

theorem push (h : q.Tracks w) (a : α) : (q.push a).Tracks (w.push a) := by
  obtain ⟨hstrategy, hrank, htable⟩ := q.push_eq a
  by_cases ha : a ∈ q.table
  · rw [Agenda.push, if_pos ha, Worklist.push, if_pos ((h.mem_iff a).mp ha)]
    exact h
  · have ha' : a ∉ w.members := (h.mem_iff a).not.mp ha
    rw [Worklist.push, if_neg ha']
    refine ⟨h.strategy_eq.trans hstrategy.symm, h.rank_eq.trans hrank.symm, ?_, h.holds.push ha⟩
    rw [htable, Finset.insert_val_of_notMem ha, h.table_eq]
    exact Multiset.coe_eq_coe.mpr (List.perm_append_singleton a w.members).symm

theorem pop? (h : q.Tracks w) :
    Option.Rel (fun x y => x.1 = y.1 ∧ x.2.Tracks y.2) q.pop? w.pop? := by
  rcases h.holds.take? with ⟨hnil, htake⟩ | ⟨l₁, a, l₂, queue, heap, hm, htakes, htake, hholds⟩
  · rw [Agenda.pop?, htake, Worklist.pop?, Worklist.next?_eq_none_iff.mpr hnil]
    exact .none
  · rw [← h.strategy_eq, ← h.rank_eq] at htakes
    rw [Agenda.pop?, htake, Worklist.pop?_of_takes hm htakes]
    have hnodup : w.members.Nodup := Multiset.coe_nodup.mp (h.table_eq ▸ q.table.nodup)
    have herase : w.members.erase a = l₁ ++ l₂ := by
      rw [hm] at hnodup ⊢
      have ha : a ∉ l₁ := fun ha =>
        (List.nodup_append.mp hnodup).2.2 a ha a List.mem_cons_self rfl
      rw [List.erase_append_right _ ha, List.erase_cons_head]
    refine .some ⟨rfl, h.strategy_eq, h.rank_eq, ?_, ?_⟩
    · rw [Finset.erase_val, h.table_eq, Multiset.coe_erase]
    · rw [herase]
      exact hholds

theorem popped_eq (h : q.Tracks w) : q.pop?.map Prod.fst = w.pop?.map Prod.fst := by
  have hrel := h.pop?
  generalize q.pop? = answer, w.pop? = answer' at hrel ⊢
  cases hrel with
  | some hR => exact congrArg some hR.1
  | none => rfl

theorem pop?_eq_some (h : q.Tracks w) (hpop : q.pop? = some (a, q')) :
    ∃ w', w.pop? = some (a, w') ∧ q'.Tracks w' := by
  have hrel := h.pop?
  rw [hpop] at hrel
  generalize w.pop? = answer at hrel ⊢
  cases hrel with
  | some hR =>
    obtain ⟨rfl, htracks⟩ := hR
    exact ⟨_, rfl, htracks⟩

theorem exists_pop? (h : q.Tracks w) (hpop : w.pop? = some (a, w')) :
    ∃ q', q.pop? = some (a, q') ∧ q'.Tracks w' := by
  have hrel := h.pop?
  rw [hpop] at hrel
  generalize q.pop? = answer at hrel ⊢
  cases hrel with
  | some hR =>
    obtain ⟨rfl, htracks⟩ := hR
    exact ⟨_, rfl, htracks⟩

end Tracks

omit [DecidableEq α] in
theorem empty_tracks (s : Strategy) (rank : α → ℕ) :
    (empty s rank : Agenda H).Tracks ⟨s, rank, []⟩ := by
  refine ⟨rfl, rfl, rfl, ?_⟩
  cases s with
  | fifo => rfl
  | lifo => rfl
  | rpo => exact ⟨[], H.entries_empty, ⟨nofun, nofun, .nil⟩, rfl⟩

theorem After.exists_tracks (h : After H s rank es q) :
    ∃ w, Worklist.After s rank es w ∧ q.Tracks w :=
  h.simulate (empty_tracks s rank) (fun a hq => hq.push a) fun hq hpop => hq.pop?_eq_some hpop

theorem exists_after (H : MinHeap Key α) (h : Worklist.After s rank es w) :
    ∃ q, After H s rank es q ∧ q.Tracks w :=
  h.simulate (R := fun w q => Tracks q w) (empty_tracks s rank) (fun a hq => hq.push a)
    fun hq hpop => hq.exists_pop? hpop

/-- Whatever has been pushed and popped, the table and the queue or heap hold the same, which is
what was pushed and not popped since, each once. An agenda is empty when the queue or heap is, so
no pop fails that is made when it is not, and what is popped precedes all other members. One list
of members answers every push and pop alike. -/
theorem after_inStep (h : After H s rank es q) :
    q.held = q.table.val ∧ (∀ a, a ∈ q.table ↔ Pending es a) ∧
    (q.isEmpty = true ↔ q.held = 0) ∧
    (q.isEmpty = false → ∃ a q', q.pop? = some (a, q')) ∧
    (∀ a q', q.pop? = some (a, q') → a ∈ q.table ∧ q'.table = q.table.erase a ∧
      ∀ b ∈ q.table, b ≠ a → Worklist.Precedes s rank es a b) ∧
    ∃ w, Worklist.After s rank es w ∧ q.Tracks w ∧ q.isEmpty = w.isEmpty ∧
      q.pop?.map Prod.fst = w.pop?.map Prod.fst := by
  obtain ⟨w, hw, htracks⟩ := h.exists_tracks
  have hfollows := hw.follows
  refine ⟨htracks.held_eq, fun a => ?_, ?_, fun hne => ?_, fun a q' hpop => ?_,
    w, hw, htracks, htracks.isEmpty_eq, htracks.popped_eq⟩
  · rw [htracks.mem_iff, hfollows.mem_iff]
  · rw [htracks.held_eq, isEmpty, decide_eq_true_eq, Finset.val_eq_zero]
  · obtain ⟨a, w', hpop⟩ := Worklist.exists_pop? (htracks.isEmpty_eq.symm.trans hne)
    obtain ⟨q', hpop', -⟩ := htracks.exists_pop? hpop
    exact ⟨a, q', hpop'⟩
  · obtain ⟨w', hpop', htracks'⟩ := htracks.pop?_eq_some hpop
    obtain ⟨ha, rfl⟩ := Worklist.pop?_eq_some hpop'
    refine ⟨(htracks.mem_iff a).mpr ha, ?_, fun b hb hne => ?_⟩
    · refine Finset.val_injective ?_
      rw [htracks'.table_eq, Finset.erase_val, htracks.table_eq, Multiset.coe_erase]
    · exact hw.pop?_precedes hpop' ((htracks.mem_iff b).mp hb) hne

/-- An agenda by rank, with one of its members pushed again. -/
def pushedAgain : Agenda (MinHeap.sorted Key ℕ) := (((empty .rpo id).push 5).push 3).push 5

theorem pushedAgain_inStep :
    After (MinHeap.sorted Key ℕ) .rpo id [.pushed 5, .pushed 3, .pushed 5] pushedAgain ∧
      pushedAgain.held = pushedAgain.table.val ∧
      (∀ a, a ∈ pushedAgain.table ↔ Pending [.pushed 5, .pushed 3, .pushed 5] a) ∧
      ∃ q', pushedAgain.pop? = some (3, q') ∧ q'.table = {5} ∧
        Worklist.Precedes .rpo id [.pushed 5, .pushed 3, .pushed 5] 3 5 := by
  have hafter : After (MinHeap.sorted Key ℕ) .rpo id [.pushed 5, .pushed 3, .pushed 5]
      pushedAgain := ((History.start.push 5).push 3).push 5
  obtain ⟨hheld, hpending, -, -, hpop, -⟩ := after_inStep hafter
  have hfirst : pushedAgain.pop?.map Prod.fst = some 3 := by decide
  obtain ⟨⟨a, q'⟩, hq', rfl⟩ := Option.map_eq_some_iff.mp hfirst
  obtain ⟨-, htable, hprecedes⟩ := hpop 3 q' hq'
  refine ⟨hafter, hheld, hpending, q', hq', ?_, hprecedes 5 (by decide) (by decide)⟩
  rw [htable]
  decide

end Agenda

/-! ## The agenda of the solver -/

namespace Solver
variable {φ : Type} {a : Analysis φ} {g : Graph} {s : Strategy} {st : State φ} {ns : List Node}
  {bound : Int} {r : Solution φ}

/-- What is visited is what has been popped. -/
theorem Visits.exists_history (h : Visits a g (start a s g) ns st) :
    ∃ es, Worklist.After s (start a s g).worklist.rank es st.worklist ∧ pops es = ns := by
  refine h.induction (P := fun ns st =>
    ∃ es, Worklist.After s (start a s g).worklist.rank es st.worklist ∧ pops es = ns) ?_ ?_
  · intro seen st n rest st' hst hpop hs
    obtain ⟨es, hes, rfl⟩ := hst
    obtain ⟨f, -, rfl⟩ := step_eq hs
    have hpopped : Worklist.After s _ (es ++ [.popped n]) rest := hes.pop hpop
    cases hsame : a.same (st.producedAt a n) f with
    | true => exact ⟨_, hpopped, pops_append_popped es n⟩
    | false =>
      refine ⟨_, hpopped.pushAll ((targets a.direction g n).filter (· ≠ startNode a.direction)), ?_⟩
      rw [pops_append_pushed, pops_append_popped]
  · obtain ⟨rank, xs, hstart⟩ : ∃ rank, ∃ xs : List Node,
        Worklist.After s rank (xs.map .pushed) (start a s g).worklist :=
      ⟨_, _, Worklist.After.pushAll .start _⟩
    rw [hstart.settings_eq.2]
    exact ⟨_, hstart, pops_append_pushed [] xs⟩

/-- The iterations are the pops from an agenda, and a result has converged if the agenda is empty
at the end, as it is unless the bound is reached. -/
theorem solve_agenda (H : MinHeap Agenda.Key Node) (h : solve a s bound g = .ok r) :
    ∃ (es : List (Event Node)) (q : Agenda H),
      Agenda.After H s (start a s g).worklist.rank es q ∧ r.iterations = (pops es).length ∧
      r.converged = q.isEmpty ∧ (r.iterations < bound.toNat → q.isEmpty = true) := by
  obtain ⟨st, hrun, rfl⟩ := exists_run h
  obtain ⟨ns, hvisits, -, hempty⟩ := exists_visits hrun
  obtain ⟨es, hes, rfl⟩ := hvisits.exists_history
  obtain ⟨q, hq, htracks⟩ := Agenda.exists_after H hes
  have hiterations : st.iterations = (pops es).length := by
    rw [hvisits.iterations_eq]
    exact Nat.zero_add _
  refine ⟨es, q, hq, hiterations, htracks.isEmpty_eq.symm, fun hlt => ?_⟩
  rw [htracks.isEmpty_eq, Worklist.isEmpty, List.isEmpty_iff]
  exact hempty (hiterations ▸ hlt)

end Solver

end FlowLint
