import FlowLint.Graph.Dot
import Mathlib.Data.List.Induction

/-! # Strings in the DOT language

A string in the DOT language stands between quotes, and in it a backslash makes one unit with a
quote or a backslash behind it. A text that stands there without escapes is read back exactly if it
has no quote and none of its backslashes comes last or before another one. What the strings of a
text say is put together from its parts.
-/
namespace FlowLint

namespace Dot

/-- Reads a string from behind its opening quote, and gives its text and what comes behind the
closing quote. -/
def readQuoted : List Char → Option (List Char × List Char)
  | [] => none
  | '"' :: rest => some ([], rest)
  | '\\' :: '"' :: rest => (readQuoted rest).map fun p => ('"' :: p.1, p.2)
  | '\\' :: '\\' :: rest => (readQuoted rest).map fun p => ('\\' :: p.1, p.2)
  | c :: rest => (readQuoted rest).map fun p => (c :: p.1, p.2)

variable {c : Char} {x y w v rest rest' t bad : List Char} {k : Nat}

theorem readQuoted_cons (hc : c ≠ '"')
    (hunit : c = '\\' → ∃ d, x.head? = some d ∧ d ≠ '"' ∧ d ≠ '\\') :
    readQuoted (c :: x) = (readQuoted x).map fun p => (c :: p.1, p.2) := by
  rw [readQuoted]
  · exact hc
  · intro rest h hx
    subst hx
    obtain ⟨d, hd, hquote, -⟩ := hunit h
    exact hquote (Option.some.inj hd).symm
  · intro rest h hx
    subst hx
    obtain ⟨d, hd, -, hbackslash⟩ := hunit h
    exact hbackslash (Option.some.inj hd).symm

theorem length_of_readQuoted (h : readQuoted x = some (v, rest)) : rest.length < x.length := by
  fun_induction readQuoted x generalizing v with
  | case1 => cases h
  | case2 x =>
    cases h
    exact Nat.lt_succ_self _
  | case3 x ih | case4 x ih =>
    obtain ⟨p, hp, hpair⟩ := Option.map_eq_some_iff.mp h
    cases hpair
    exact Nat.lt_succ_of_lt (Nat.lt_succ_of_lt (ih hp))
  | case5 c x _ _ _ ih =>
    obtain ⟨p, hp, hpair⟩ := Option.map_eq_some_iff.mp h
    cases hpair
    exact Nat.lt_succ_of_lt (ih hp)

/-- The texts of all strings, from left to right, if each of them is closed. -/
def literals (x : List Char) : Option (List (List Char)) :=
  match x with
  | [] => some []
  | '"' :: x =>
    match _h : readQuoted x with
    | none => none
    | some (v, rest) => (literals rest).map (v :: ·)
  | _ :: x => literals x
termination_by x.length
decreasing_by
  · exact Nat.lt_succ_of_lt (length_of_readQuoted ‹_›)
  · exact Nat.lt_succ_self _

/-- The text of the string that is open. -/
def value? (x : List Char) : Option (List Char) := (readQuoted x).map (·.1)

theorem value?_cons (hc : c ≠ '"') (hunit : c = '\\' → ∃ d, x.head? = some d ∧ d ≠ '"' ∧ d ≠ '\\') :
    value? (c :: x) = (value? x).map (c :: ·) := by
  rw [value?, readQuoted_cons hc hunit, value?, Option.map_map, Option.map_map]
  rfl

/-- A backslash that is read as the first character has come from a pair of them, or from one that
stands alone. -/
theorem backslash_of_value? (h : value? ('\\' :: x) = some ('\\' :: v)) :
    (∃ y, x = '\\' :: y ∧ value? y = some v) ∨
      (∃ d, x.head? = some d ∧ d ≠ '"' ∧ d ≠ '\\') ∧ value? x = some v := by
  match x with
  | [] => cases h
  | d :: x =>
    by_cases hquote : d = '"'
    · subst hquote
      obtain ⟨p, hp, heq⟩ := Option.map_eq_some_iff.mp h
      obtain ⟨q, -, rfl⟩ := Option.map_eq_some_iff.mp hp
      cases heq
    by_cases hbackslash : d = '\\'
    · subst hbackslash
      obtain ⟨p, hp, heq⟩ := Option.map_eq_some_iff.mp h
      obtain ⟨q, hq, rfl⟩ := Option.map_eq_some_iff.mp hp
      cases heq
      refine .inl ⟨x, rfl, ?_⟩
      rw [value?, hq]
      rfl
    · have hunit : ∃ e, (d :: x).head? = some e ∧ e ≠ '"' ∧ e ≠ '\\' :=
        ⟨d, rfl, hquote, hbackslash⟩
      rw [value?_cons (by decide) fun _ => hunit] at h
      obtain ⟨w, hw, heq⟩ := Option.map_eq_some_iff.mp h
      cases heq
      exact .inr ⟨hunit, hw⟩

/-- No backslash of a text comes last or before one of some characters. -/
def Lone (bad t : List Char) : Prop :=
  ∀ back, '\\' :: back <:+ t → ∃ c, back.head? = some c ∧ c ∉ bad

theorem lone_nil : Lone bad [] := fun _ h => nomatch List.suffix_nil.mp h

theorem lone_cons_iff :
    Lone bad (c :: t) ↔ (c = '\\' → ∃ d, t.head? = some d ∧ d ∉ bad) ∧ Lone bad t := by
  constructor
  · intro h
    refine ⟨?_, fun back hback => h back (List.suffix_cons_iff.mpr (.inr hback))⟩
    rintro rfl
    exact h t List.suffix_rfl
  · rintro ⟨hfirst, hrest⟩ back hback
    rcases List.suffix_cons_iff.mp hback with heq | hback
    · obtain ⟨rfl, rfl⟩ := List.cons.inj heq
      exact hfirst rfl
    · exact hrest back hback

theorem lone_cons_of_ne (hc : c ≠ '\\') : Lone bad (c :: t) ↔ Lone bad t := by
  rw [lone_cons_iff, and_iff_right fun h => absurd h hc]

theorem replicate_append_cons (k : Nat) (c : Char) (x : List Char) :
    List.replicate k c ++ c :: x = c :: (List.replicate k c ++ x) := by
  rw [List.append_cons, ← List.replicate_succ', List.replicate_succ]
  rfl

/-- What is written as it stands is read back if it has no quote and lone backslashes only. -/
theorem readQuoted_of_lone (hquote : '"' ∉ t) (hlone : Lone ['\\'] t) (rest : List Char) :
    readQuoted (t ++ '"' :: rest) = some (t, rest) := by
  induction t with
  | nil => rfl
  | cons c t ih =>
    rw [List.mem_cons, not_or] at hquote
    obtain ⟨hnext, hlone⟩ := lone_cons_iff.mp hlone
    have hunit : c = '\\' → ∃ d, (t ++ '"' :: rest).head? = some d ∧ d ≠ '"' ∧ d ≠ '\\' := by
      intro hc
      obtain ⟨d, hd, hne⟩ := hnext hc
      obtain ⟨u, rfl⟩ := List.head?_eq_some_iff.mp hd
      rw [List.mem_singleton] at hne
      exact ⟨d, rfl, fun h => hquote.2 (h ▸ List.mem_cons_self), hne⟩
    rw [List.cons_append, readQuoted_cons (Ne.symm hquote.1) hunit, ih hquote.2 hlone]
    rfl

/-- What is written as it stands and read back has no quote and lone backslashes only. A pair of
backslashes is read as one, so that one more would have to come from what is behind them, and so
on. -/
theorem lone_of_value? (h : value? (t ++ '"' :: rest) = some (List.replicate k '\\' ++ t)) :
    k = 0 ∧ '"' ∉ t ∧ Lone ['\\'] t := by
  induction hn : t.length using Nat.strongRecOn generalizing t k with
  | ind n ih =>
  subst hn
  match t with
  | [] =>
    have hv : [] = List.replicate k '\\' ++ [] := Option.some.inj h
    cases k with
    | zero => exact ⟨rfl, List.not_mem_nil, lone_nil⟩
    | succ k => cases hv
  | c :: t =>
    by_cases hc : c = '\\'
    · subst hc
      rw [replicate_append_cons] at h
      rcases backslash_of_value? h with ⟨y, hy, hv⟩ | ⟨⟨d, hd, hquote, hbackslash⟩, hv⟩
      · -- a pair, or a backslash that takes the closing quote with it
        cases t with
        | nil => cases hy
        | cons d t =>
          obtain ⟨rfl, rfl⟩ := List.cons.inj hy
          rw [replicate_append_cons] at hv
          have hless : t.length < ('\\' :: '\\' :: t).length :=
            Nat.lt_succ_of_lt (Nat.lt_succ_self _)
          cases (ih t.length hless (k := k + 1) hv rfl).1
      · obtain ⟨hk, hnot, hlone⟩ := ih t.length (Nat.lt_succ_self _) hv rfl
        refine ⟨hk, List.not_mem_cons_of_ne_of_not_mem (by decide) hnot, ?_⟩
        refine lone_cons_iff.mpr ⟨fun _ => ?_, hlone⟩
        cases t with
        | nil => exact absurd (Option.some.inj hd).symm hquote
        | cons e t => exact ⟨e, rfl, by rw [Option.some.inj hd]; simpa using hbackslash⟩
    · by_cases hquote : c = '"'
      · subst hquote
        have hv : [] = List.replicate k '\\' ++ '"' :: t := Option.some.inj h
        simp at hv
      rw [List.cons_append, value?_cons hquote fun h => absurd h hc] at h
      obtain ⟨v, hv, heq⟩ := Option.map_eq_some_iff.mp h
      cases k with
      | zero =>
        cases heq
        obtain ⟨-, hnot, hlone⟩ := ih t.length (Nat.lt_succ_self _) (k := 0) hv rfl
        exact ⟨rfl, List.not_mem_cons_of_ne_of_not_mem (Ne.symm hquote) hnot,
          (lone_cons_of_ne hc).mpr hlone⟩
      | succ k => exact absurd (List.cons.inj heq).1 hc

/-- A string that is written as `w` and says `v`. Under a condition it is read as that, up to the
quote behind it, and otherwise something else is read. -/
def Quotes (P : Prop) (w v : List Char) : Prop :=
  ∀ rest rest', readQuoted (w ++ '"' :: rest) = some (v, rest') ↔ P ∧ rest' = rest

theorem Quotes.of_value? {P : Prop}
    (hP : P → ∀ rest, readQuoted (w ++ '"' :: rest) = some (v, rest))
    (hv : ∀ rest, value? (w ++ '"' :: rest) = some v → P) : Quotes P w v := by
  intro rest rest'
  constructor
  · intro h
    have hp : P := hv rest (by rw [value?, h]; rfl)
    rw [hP hp rest] at h
    exact ⟨hp, (congrArg Prod.snd (Option.some.inj h)).symm⟩
  · rintro ⟨hp, rfl⟩
    exact hP hp rest'

/-- A text as it stands. -/
theorem quotes_self (t : List Char) : Quotes ('"' ∉ t ∧ Lone ['\\'] t) t t :=
  .of_value? (fun h => readQuoted_of_lone h.1 h.2) fun _ h => (lone_of_value? (k := 0) h).2

/-- Characters that mean nothing else in a string. -/
def Plain (x : List Char) : Prop := ∀ c ∈ x, c ≠ '"' ∧ c ≠ '\\'

instance (x : List Char) : Decidable (Plain x) := List.decidableBAll _ x

theorem Plain.append (hx : Plain x) (hy : Plain y) : Plain (x ++ y) :=
  List.forall_mem_append.mpr ⟨hx, hy⟩

theorem Plain.readQuoted_append (hx : Plain x) (y : List Char) :
    readQuoted (x ++ y) = (readQuoted y).map fun p => (x ++ p.1, p.2) := by
  induction x with
  | nil => exact Option.map_id'.symm
  | cons c x ih =>
    obtain ⟨⟨hquote, hbackslash⟩, hrest⟩ := List.forall_mem_cons.mp hx
    rw [List.cons_append, readQuoted_cons hquote fun h => absurd h hbackslash, ih hrest,
      Option.map_map]
    rfl

theorem Quotes.append_left {P : Prop} (h : Quotes P w v) (hx : Plain x) :
    Quotes P (x ++ w) (x ++ v) := by
  intro rest rest'
  rw [List.append_assoc, hx.readQuoted_append, Option.map_eq_some_iff]
  constructor
  · rintro ⟨⟨u, r⟩, hu, heq⟩
    cases List.append_cancel_left (congrArg Prod.fst heq)
    cases heq
    exact (h rest r).mp hu
  · exact fun hp => ⟨(v, rest'), (h rest rest').mpr hp, rfl⟩

theorem Plain.quotes (hx : Plain x) : Quotes True x x := by
  refine .of_value? (fun _ rest => ?_) fun _ _ => trivial
  rw [hx.readQuoted_append]
  simp [readQuoted]

theorem literals_quote (x : List Char) : literals ('"' :: x) =
    (readQuoted x).bind fun p => (literals p.2).map (p.1 :: ·) := by
  rw [literals]
  cases readQuoted x <;> rfl

theorem literals_append (hx : '"' ∉ x) (y : List Char) : literals (x ++ y) = literals y := by
  induction x with
  | nil => rfl
  | cons c x ih =>
    rw [List.mem_cons, not_or] at hx
    rw [List.cons_append, literals, ih hx.2]
    exact fun h => hx.1 h.symm

/-- A part of a text whose strings say `vs`. Under a condition these are read before what comes
behind it, and otherwise other ones are. -/
def Spells (P : Prop) (vs : List (List Char)) (x : List Char) : Prop :=
  ∀ rest us, literals (x ++ rest) = some (vs ++ us) ↔ P ∧ literals rest = some us

namespace Spells
variable {P Q : Prop} {vs us : List (List Char)}

theorem of_not_mem (hx : '"' ∉ x) : Spells True [] x := by
  intro rest us
  rw [literals_append hx, List.nil_append, true_and]

theorem append (h : Spells P vs x) (h' : Spells Q us y) : Spells (P ∧ Q) (vs ++ us) (x ++ y) := by
  intro rest ws
  rw [List.append_assoc, List.append_assoc, h, h', and_assoc]

theorem append_left (h : Spells P vs y) (hx : '"' ∉ x) : Spells P vs (x ++ y) := by
  intro rest us
  rw [List.append_assoc, literals_append hx, h]

theorem append_right (h : Spells P vs x) (hy : '"' ∉ y) : Spells P vs (x ++ y) := by
  intro rest us
  rw [List.append_assoc, h, literals_append hy]

theorem quoted (h : Quotes P w v) : Spells P [v] ('"' :: w ++ ['"']) := by
  intro rest us
  have hquoted : '"' :: w ++ ['"'] ++ rest = '"' :: (w ++ '"' :: rest) := by simp
  rw [hquoted, literals_quote, Option.bind_eq_some_iff]
  constructor
  · rintro ⟨⟨u, rest'⟩, hu, hrest⟩
    obtain ⟨ws, hws, heq⟩ := Option.map_eq_some_iff.mp hrest
    obtain ⟨rfl, rfl⟩ := List.cons.inj heq
    obtain ⟨hp, rfl⟩ := (h rest rest').mp hu
    exact ⟨hp, hws⟩
  · rintro ⟨hp, hrest⟩
    exact ⟨(v, rest), (h rest rest).mpr ⟨hp, rfl⟩, by rw [hrest]; rfl⟩

theorem congr (h : Spells P vs x) (hPQ : P ↔ Q) : Spells Q vs x := by
  rwa [Spells, ← hPQ]

theorem flatMap {α : Type} {as : List α} {P : α → Prop} {vs : α → List (List Char)}
    {line : α → List Char} (h : ∀ a ∈ as, Spells (P a) (vs a) (line a)) :
    Spells (∀ a ∈ as, P a) (as.flatMap vs) (as.flatMap line) := by
  induction as with
  | nil => exact (of_not_mem List.not_mem_nil).congr (by simp)
  | cons a as ih =>
    obtain ⟨ha, has⟩ := List.forall_mem_cons.mp h
    exact (ha.append (ih has)).congr List.forall_mem_cons.symm

/-- A text as a whole. -/
theorem literals_eq_some_iff (h : Spells P vs x) : literals x = some vs ↔ P := by
  have hx := h [] []
  rw [List.append_nil, List.append_nil, literals] at hx
  exact hx.trans (and_iff_left rfl)

end Spells

end Dot

end FlowLint
