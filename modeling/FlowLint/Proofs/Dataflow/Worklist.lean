import FlowLint.Dataflow.Worklist
import Mathlib.Data.List.Induction
import Mathlib.Data.List.Nodup
import Mathlib.Order.Nat

/-! # Worklists along their histories

A history is what was pushed on a worklist and popped from it, in the order in which it was done.
It settles the members, which are the pending ones, and their order: a membership begins with a
push of what is not pending and lasts until it is popped, whatever is pushed again meanwhile. What
is popped is the member that the strategy puts before all others.
-/
namespace FlowLint

namespace Worklist
variable {α : Type} {s : Strategy} {rank : α → Nat} {a b x : α} {l l₁ l₂ xs : List α}

/-- What is taken from between `l₁` and `l₂`. Of the least rank it is the first. -/
def Takes (s : Strategy) (rank : α → Nat) (l₁ : List α) (a : α) (l₂ : List α) : Prop :=
  match s with
  | .fifo => l₁ = []
  | .lifo => l₂ = []
  | .rpo => (∀ b ∈ l₁, rank a < rank b) ∧ ∀ b ∈ l₂, rank a ≤ rank b

theorem exists_takes (s : Strategy) (rank : α → Nat) (hl : l ≠ []) :
    ∃ l₁ a l₂, l = l₁ ++ a :: l₂ ∧ Takes s rank l₁ a l₂ := by
  cases s with
  | fifo =>
    obtain ⟨a, l₂, rfl⟩ := List.exists_cons_of_ne_nil hl
    exact ⟨[], a, l₂, rfl, rfl⟩
  | lifo => exact ⟨l.dropLast, l.getLast hl, [], (List.dropLast_append_getLast hl).symm, rfl⟩
  | rpo =>
    induction l with
    | nil => exact absurd rfl hl
    | cons x l ih =>
      by_cases hnil : l = []
      · subst hnil
        exact ⟨[], x, [], rfl, nofun, nofun⟩
      obtain ⟨l₁, a, l₂, rfl, hl₁, hl₂⟩ := ih hnil
      by_cases hx : rank a < rank x
      · exact ⟨x :: l₁, a, l₂, rfl, List.forall_mem_cons.mpr ⟨hx, hl₁⟩, hl₂⟩
      · have hxa : rank x ≤ rank a := Nat.le_of_not_lt hx
        refine ⟨[], x, l₁ ++ a :: l₂, rfl, nofun, fun b hb => ?_⟩
        rcases List.mem_append.mp hb with hb | hb
        · exact hxa.trans (hl₁ b hb).le
        · rcases List.mem_cons.mp hb with rfl | hb
          · exact hxa
          · exact hxa.trans (hl₂ b hb)

theorem least_of_le (h : ∀ b ∈ l, rank a ≤ rank b) : least rank a l = a := by
  induction l with
  | nil => rfl
  | cons b l ih =>
    obtain ⟨hb, hl⟩ := List.forall_mem_cons.mp h
    rw [least, if_neg hb.not_gt]
    exact ih hl

/-- A scan that meets a smaller rank forgets what it has held. -/
theorem least_append_cons (hx : rank a < rank x) (h₁ : ∀ b ∈ l₁, rank a < rank b)
    (h₂ : ∀ b ∈ l₂, rank a ≤ rank b) : least rank x (l₁ ++ a :: l₂) = a := by
  induction l₁ generalizing x with
  | nil =>
    rw [List.nil_append, least, if_pos hx]
    exact least_of_le h₂
  | cons b l₁ ih =>
    obtain ⟨hb, hl₁⟩ := List.forall_mem_cons.mp h₁
    rw [List.cons_append, least]
    split
    · exact ih hb hl₁
    · exact ih hx hl₁

variable {w w' rest : Worklist α}

theorem next?_of_takes (hm : w.members = l₁ ++ a :: l₂) (h : Takes w.strategy w.rank l₁ a l₂) :
    w.next? = some a := by
  obtain ⟨s, rank, members⟩ := w
  simp only at hm h
  subst hm
  cases s with
  | fifo =>
    cases h
    rfl
  | lifo =>
    cases h
    cases l₁ with
    | nil => rfl
    | cons x l₁ => exact congrArg some (List.getLast_append_singleton (x :: l₁))
  | rpo =>
    obtain ⟨h₁, h₂⟩ := h
    cases l₁ with
    | nil => exact congrArg some (least_of_le h₂)
    | cons x l₁ =>
      obtain ⟨hx, hl₁⟩ := List.forall_mem_cons.mp h₁
      exact congrArg some (least_append_cons hx hl₁ h₂)

variable [DecidableEq α]

theorem mem_pushAll : b ∈ (w.pushAll xs).members ↔ b ∈ w.members ∨ b ∈ xs := by
  induction xs generalizing w with
  | nil => simp [pushAll]
  | cons a xs ih =>
    have h : b ∈ (w.pushAll (a :: xs)).members ↔ b ∈ (w.push a).members ∨ b ∈ xs := ih
    rw [h, mem_push, List.mem_cons, or_assoc]

theorem nodup_push (hw : w.members.Nodup) (a : α) : (w.push a).members.Nodup := by
  rw [push]
  split
  · exact hw
  · next ha => exact List.nodup_append_comm.mp (List.nodup_cons.mpr ⟨ha, hw⟩)

theorem nodup_pushAll (hw : w.members.Nodup) (xs : List α) : (w.pushAll xs).members.Nodup := by
  induction xs generalizing w with
  | nil => exact hw
  | cons x xs ih => exact ih (nodup_push hw x)

theorem length_pushAll_le (w : Worklist α) (xs : List α) :
    (w.pushAll xs).members.length ≤ w.members.length + xs.length := by
  induction xs generalizing w with
  | nil => exact Nat.le_refl _
  | cons x xs ih =>
    have hpush : (w.push x).members.length ≤ w.members.length + 1 := by
      rw [push]
      split
      · exact Nat.le_succ _
      · exact (List.length_append ..).le
    have hrest := ih (w.push x)
    rw [pushAll] at hrest
    rw [pushAll, List.foldl_cons, List.length_cons]
    omega

theorem pushAll_of_subset (h : ∀ x ∈ xs, x ∈ w.members) : w.pushAll xs = w := by
  induction xs with
  | nil => rfl
  | cons x xs ih =>
    obtain ⟨hx, hxs⟩ := List.forall_mem_cons.mp h
    rw [pushAll, List.foldl_cons, push, if_pos hx]
    exact ih hxs

theorem pushAll_of_nodup (h : (w.members ++ xs).Nodup) :
    w.pushAll xs = { w with members := w.members ++ xs } := by
  induction xs generalizing w with
  | nil =>
    rw [List.append_nil]
    rfl
  | cons x xs ih =>
    have hx : x ∉ w.members := fun hmem =>
      (List.nodup_append.mp h).2.2 x hmem x List.mem_cons_self rfl
    rw [List.append_cons] at h
    rw [pushAll, List.foldl_cons, push, if_neg hx]
    refine (ih (w := { w with members := w.members ++ [x] }) h).trans ?_
    rw [List.append_cons w.members x xs]

theorem pop?_eq_some (h : w.pop? = some (a, rest)) :
    a ∈ w.members ∧ rest = { w with members := w.members.erase a } := by
  obtain ⟨b, hb, he⟩ := Option.map_eq_some_iff.mp h
  cases he
  exact ⟨next?_mem hb, rfl⟩

theorem pop?_of_takes (hm : w.members = l₁ ++ a :: l₂) (h : Takes w.strategy w.rank l₁ a l₂) :
    w.pop? = some (a, { w with members := w.members.erase a }) := by
  rw [pop?, next?_of_takes hm h, Option.map_some]

theorem exists_pop? (hw : w.isEmpty = false) : ∃ a rest, w.pop? = some (a, rest) := by
  have hne : w.members ≠ [] := by simpa [isEmpty] using hw
  obtain ⟨l₁, a, l₂, hm, htakes⟩ := exists_takes w.strategy w.rank hne
  exact ⟨a, _, pop?_of_takes hm htakes⟩

/-- The first member is popped if its rank is the least. -/
theorem pop?_rpo (h : ∀ b ∈ l, rank a ≤ rank b) :
    (⟨.rpo, rank, a :: l⟩ : Worklist α).pop? = some (a, ⟨.rpo, rank, l⟩) := by
  have htakes : Takes .rpo rank [] a l := ⟨nofun, h⟩
  have hpop := pop?_of_takes (w := ⟨.rpo, rank, a :: l⟩) rfl htakes
  rwa [List.erase_cons_head] at hpop

theorem pop?_takes (h : w.pop? = some (a, rest)) :
    ∃ l₁ l₂, w.members = l₁ ++ a :: l₂ ∧ Takes w.strategy w.rank l₁ a l₂ := by
  have hne : w.members ≠ [] := List.ne_nil_of_mem (pop?_eq_some h).1
  obtain ⟨l₁, b, l₂, hm, htakes⟩ := exists_takes w.strategy w.rank hne
  have hb := pop?_of_takes hm htakes
  rw [h] at hb
  cases hb
  exact ⟨l₁, l₂, hm, htakes⟩

end Worklist

/-! ## Histories -/

/-- What is done to a worklist. -/
inductive Event (α : Type) where
  | pushed (a : α)
  | popped (a : α)
  deriving DecidableEq

section
variable {α : Type} {es : List (Event α)} {e : Event α} {a b : α} {m n : Nat}

/-- A push that no pop has undone. -/
def PushedAt (es : List (Event α)) (a : α) (n : Nat) : Prop :=
  es[n]? = some (.pushed a) ∧ .popped a ∉ es.drop n

def Pending (es : List (Event α)) (a : α) : Prop := ∃ n, PushedAt es a n

/-- The push with which the membership began that `a` still has. -/
def BeganAt (es : List (Event α)) (a : α) (n : Nat) : Prop :=
  PushedAt es a n ∧ ¬Pending (es.take n) a

/-- The membership of `a` began before that of `b`. -/
def Earlier (es : List (Event α)) (a b : α) : Prop :=
  ∃ m n, BeganAt es a m ∧ BeganAt es b n ∧ m < n

theorem PushedAt.lt_length (h : PushedAt es a n) : n < es.length :=
  (List.getElem?_eq_some_iff.mp h.1).1

theorem pushedAt_concat : PushedAt (es ++ [e]) a n ↔
    (PushedAt es a n ∧ e ≠ .popped a) ∨ (n = es.length ∧ e = .pushed a) := by
  rcases Nat.lt_trichotomy n es.length with hn | rfl | hn
  · have hdrop : (es ++ [e]).drop n = es.drop n ++ [e] := List.drop_append_of_le_length hn.le
    simp only [PushedAt, List.getElem?_append_left hn, hdrop, List.mem_append,
      List.mem_singleton, not_or, hn.ne, false_and, or_false, and_assoc, ne_comm, ne_eq]
  · have hold : ¬PushedAt es a es.length := fun h => h.lt_length.false
    have hnew : PushedAt (es ++ [e]) a es.length ↔ e = .pushed a := by
      simp only [PushedAt, List.getElem?_concat_length, List.drop_left, Option.some.injEq,
        List.mem_singleton, and_iff_left_iff_imp]
      rintro rfl
      exact nofun
    simp only [hnew, hold, false_and, false_or, true_and]
  · have hold : ¬PushedAt es a n := fun h => h.lt_length.not_gt hn
    have hnew : ¬PushedAt (es ++ [e]) a n := fun h => by
      have hlt := h.lt_length
      rw [List.length_append, List.length_singleton] at hlt
      omega
    simp only [hold, hnew, hn.ne', false_and, or_self]

theorem pending_concat :
    Pending (es ++ [e]) a ↔ (Pending es a ∧ e ≠ .popped a) ∨ e = .pushed a := by
  simp only [Pending, pushedAt_concat, exists_or, exists_and_right, exists_eq, true_and]

theorem beganAt_concat : BeganAt (es ++ [e]) a n ↔
    (BeganAt es a n ∧ e ≠ .popped a) ∨ (n = es.length ∧ e = .pushed a ∧ ¬Pending es a) := by
  rw [BeganAt, pushedAt_concat, or_and_right]
  refine or_congr ?_ ?_
  · rw [BeganAt, and_right_comm]
    refine and_congr_left fun _ => and_congr_right fun h => ?_
    rw [List.take_append_of_le_length h.lt_length.le]
  · rw [and_assoc]
    refine and_congr_right fun hn => ?_
    rw [hn, List.take_left]

/-- Just the pending ones have a membership, and that began once. -/
theorem pending_iff_existsUnique : Pending es a ↔ ∃! n, BeganAt es a n := by
  induction es using List.reverseRecOn with
  | nil =>
    refine iff_of_false ?_ ?_
    · rintro ⟨n, hn, -⟩
      cases hn
    · rintro ⟨n, ⟨⟨hn, -⟩, -⟩, -⟩
      cases hn
  | append_singleton es e ih =>
    rw [pending_concat]
    simp only [beganAt_concat]
    by_cases hpending : Pending es a
    · by_cases he : e = .popped a
      · subst he
        simp [ExistsUnique]
      · simpa [hpending, he] using ih.mp hpending
    · have hnone : ∀ n, ¬BeganAt es a n := fun n h => hpending ⟨n, h.1⟩
      by_cases he : e = .pushed a <;> simp [hpending, hnone, he, ExistsUnique]

theorem BeganAt.concat (h : BeganAt es a n) (he : e ≠ .popped a) : BeganAt (es ++ [e]) a n :=
  beganAt_concat.mpr (.inl ⟨h, he⟩)

theorem Earlier.concat (h : Earlier es a b) (ha : e ≠ .popped a) (hb : e ≠ .popped b) :
    Earlier (es ++ [e]) a b := by
  obtain ⟨m, n, hm, hn, hlt⟩ := h
  exact ⟨m, n, hm.concat ha, hn.concat hb, hlt⟩

/-- What is pushed anew comes last. -/
theorem earlier_pushed (ha : Pending es a) (hb : ¬Pending es b) :
    Earlier (es ++ [.pushed b]) a b := by
  obtain ⟨m, hm, -⟩ := pending_iff_existsUnique.mp ha
  exact ⟨m, es.length, hm.concat nofun, beganAt_concat.mpr (.inr ⟨rfl, rfl, hb⟩), hm.1.lt_length⟩

/-- What pushes and pops lead to from a start, with what was done. -/
inductive History {σ : Type} (start : σ) (push : σ → α → σ) (pop? : σ → Option (α × σ)) :
    List (Event α) → σ → Prop
  | start : History start push pop? [] start
  | push {es st} (h : History start push pop? es st) (a : α) :
    History start push pop? (es ++ [.pushed a]) (push st a)
  | pop {es st a st'} (h : History start push pop? es st) (hpop : pop? st = some (a, st')) :
    History start push pop? (es ++ [.popped a]) st'

/-- What was popped, in order. -/
def pops (es : List (Event α)) : List α :=
  es.filterMap fun
    | .pushed _ => none
    | .popped a => some a

@[simp] theorem pops_append_popped (es : List (Event α)) (a : α) :
    pops (es ++ [.popped a]) = pops es ++ [a] := by
  rw [pops, List.filterMap_append]
  rfl

@[simp] theorem pops_append_pushed (es : List (Event α)) (xs : List α) :
    pops (es ++ xs.map .pushed) = pops es := by
  rw [pops, List.filterMap_append, List.filterMap_map]
  simp [pops]

/-- What answers each push and pop alike has the same histories. -/
theorem History.simulate {σ τ : Type} {start st : σ} {push : σ → α → σ}
    {pop? : σ → Option (α × σ)} {start' : τ} {push' : τ → α → τ} {pop?' : τ → Option (α × τ)}
    {R : σ → τ → Prop} (hstart : R start start')
    (hpush : ∀ {st st'} a, R st st' → R (push st a) (push' st' a))
    (hpop : ∀ {st st' a st₁}, R st st' → pop? st = some (a, st₁) →
      ∃ st₁', pop?' st' = some (a, st₁') ∧ R st₁ st₁')
    (h : History start push pop? es st) : ∃ st', History start' push' pop?' es st' ∧ R st st' := by
  induction h with
  | start => exact ⟨start', .start, hstart⟩
  | push _ a ih =>
    obtain ⟨st', hst', hR⟩ := ih
    exact ⟨push' st' a, hst'.push a, hpush a hR⟩
  | pop _ hpopped ih =>
    obtain ⟨st', hst', hR⟩ := ih
    obtain ⟨st₁', hpopped', hR₁⟩ := hpop hR hpopped
    exact ⟨st₁', hst'.pop hpopped', hR₁⟩

end

/-! ## What a history settles -/

namespace Worklist
variable {α : Type} [DecidableEq α] {s : Strategy} {rank : α → Nat} {w w' : Worklist α}
  {es : List (Event α)} {a b : α}

abbrev After (s : Strategy) (rank : α → Nat) : List (Event α) → Worklist α → Prop :=
  History ⟨s, rank, []⟩ push pop?

/-- Each pending one is a member once, in the order in which the memberships began. -/
structure Follows (w : Worklist α) (es : List (Event α)) : Prop where
  nodup : w.members.Nodup
  mem_iff : ∀ a, a ∈ w.members ↔ Pending es a
  ascending : w.members.Pairwise (Earlier es)

theorem Follows.push (hw : w.Follows es) (a : α) : (w.push a).Follows (es ++ [.pushed a]) where
  nodup := nodup_push hw.nodup a
  mem_iff b := by
    rw [mem_push, pending_concat, hw.mem_iff, eq_comm (a := b)]
    simp
  ascending := by
    have hold : w.members.Pairwise (Earlier (es ++ [.pushed a])) :=
      hw.ascending.imp fun h => h.concat nofun nofun
    rw [Worklist.push]
    split
    · exact hold
    · next ha =>
      refine List.pairwise_append.mpr ⟨hold, List.pairwise_singleton _ _, fun b hb c hc => ?_⟩
      rw [List.mem_singleton.mp hc]
      exact earlier_pushed ((hw.mem_iff b).mp hb) ((hw.mem_iff a).not.mp ha)

theorem Follows.pop (hw : w.Follows es) (h : w.pop? = some (a, w')) :
    w'.Follows (es ++ [.popped a]) := by
  obtain ⟨-, rfl⟩ := pop?_eq_some h
  have hmem : ∀ b, b ∈ w.members.erase a ↔ b ≠ a ∧ b ∈ w.members := fun b => hw.nodup.mem_erase_iff
  refine ⟨hw.nodup.erase a, fun b => ?_, ?_⟩
  · rw [hmem, pending_concat, hw.mem_iff, and_comm, ne_comm]
    simp
  · refine (hw.ascending.sublist List.erase_sublist).imp_of_mem fun {b c} hb hc h => ?_
    have hba := ((hmem b).mp hb).1
    have hca := ((hmem c).mp hc).1
    exact h.concat (by simp [hba.symm]) (by simp [hca.symm])

theorem After.follows (h : After s rank es w) : w.Follows es := by
  induction h with
  | start => exact ⟨List.nodup_nil, fun a => by simp [Pending, PushedAt], List.Pairwise.nil⟩
  | push _ a ih => exact ih.push a
  | pop _ hpop ih => exact ih.pop hpop

theorem After.settings_eq (h : After s rank es w) : w.strategy = s ∧ w.rank = rank := by
  induction h with
  | start => exact ⟨rfl, rfl⟩
  | push _ a ih =>
    rw [Worklist.push]
    split <;> exact ih
  | pop _ hpop ih =>
    obtain ⟨-, rfl⟩ := pop?_eq_some hpop
    exact ih

theorem After.pushAll (h : After s rank es w) (xs : List α) :
    After s rank (es ++ xs.map .pushed) (w.pushAll xs) := by
  induction xs generalizing es w with
  | nil =>
    rw [List.map_nil, List.append_nil]
    exact h
  | cons x xs ih =>
    rw [List.map_cons, List.append_cons]
    exact ih (h.push x)

/-- `a` is popped before `b`. Ranks that tell the members apart decide alone. -/
def Precedes (s : Strategy) (rank : α → Nat) (es : List (Event α)) (a b : α) : Prop :=
  match s with
  | .fifo => Earlier es a b
  | .lifo => Earlier es b a
  | .rpo => rank a < rank b ∨ rank a = rank b ∧ Earlier es a b

theorem After.pop?_precedes (h : After s rank es w) (hpop : w.pop? = some (a, w'))
    (hb : b ∈ w.members) (hne : b ≠ a) : Precedes s rank es a b := by
  obtain ⟨rfl, rfl⟩ := h.settings_eq
  obtain ⟨l₁, l₂, hm, htakes⟩ := pop?_takes hpop
  have hascending := h.follows.ascending
  rw [hm] at hb hascending
  obtain ⟨-, hafter, hbefore⟩ := List.pairwise_append.mp hascending
  have hfront : b ∈ l₁ → Earlier es b a := fun hb => hbefore b hb a List.mem_cons_self
  have hback : b ∈ l₂ → Earlier es a b := (List.pairwise_cons.mp hafter).1 b
  have hside : b ∈ l₁ ∨ b ∈ l₂ := by simpa [hne] using hb
  cases hs : w.strategy with
  | fifo =>
    rw [hs] at htakes
    cases htakes
    exact hback (hside.resolve_left nofun)
  | lifo =>
    rw [hs] at htakes
    cases htakes
    exact hfront (hside.resolve_right nofun)
  | rpo =>
    rw [hs] at htakes
    rcases hside with hb | hb
    · exact .inl (htakes.1 b hb)
    · exact (htakes.2 b hb).lt_or_eq.imp_right fun heq => ⟨heq, hback hb⟩

end Worklist

end FlowLint
