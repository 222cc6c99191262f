import FlowLint.Error
import Mathlib.Data.List.Forall2

/-! # Computations that may fail

A computation with a result has one at each of its stages. Two computations agree when they fail
with one error or have results that are related; stages that agree make computations that agree.
-/
namespace FlowLint

theorem exists_of_bind {α β ε : Type} {x : Except ε α} {f : α → Except ε β} {b : β}
    (h : (x >>= f) = .ok b) : ∃ a, x = .ok a ∧ f a = .ok b := by
  cases x with
  | error e => cases h
  | ok a => exact ⟨a, rfl, h⟩

theorem exists_of_map {α β ε : Type} {x : Except ε α} {f : α → β} {b : β}
    (h : x.map f = .ok b) : ∃ a, x = .ok a ∧ f a = b := by
  cases x with
  | error e => cases h
  | ok a => exact ⟨a, rfl, Except.ok.inj h⟩

theorem forall₂_of_mapM {α β ε : Type} {f : α → Except ε β} {as : List α} {bs : List β}
    (h : as.mapM f = .ok bs) : List.Forall₂ (fun a b => f a = .ok b) as bs := by
  induction as generalizing bs with
  | nil =>
    cases h
    exact .nil
  | cons a rest ih =>
    rw [List.mapM_cons] at h
    obtain ⟨b, ha, h⟩ := exists_of_bind h
    obtain ⟨tail, hrest, h⟩ := exists_of_bind h
    cases h
    exact .cons ha (ih hrest)

theorem mapM_eq_ok_iff {α β ε : Type} {f : α → Except ε β} {as : List α} {bs : List β} :
    as.mapM f = .ok bs ↔ List.Forall₂ (fun a b => f a = .ok b) as bs := by
  refine ⟨forall₂_of_mapM, fun h => ?_⟩
  induction h with
  | nil => rfl
  | cons ha _ ih =>
    rw [List.mapM_cons, ha, ih]
    rfl

theorem mem_of_forall₂ {α β : Type} {R : α → β → Prop} {as : List α} {bs : List β}
    (h : List.Forall₂ R as bs) :
    (∀ a ∈ as, ∃ b ∈ bs, R a b) ∧ ∀ b ∈ bs, ∃ a ∈ as, R a b := by
  induction h with
  | nil => exact ⟨nofun, nofun⟩
  | cons hab _ ih =>
    constructor
    · intro a ha
      rcases List.mem_cons.mp ha with rfl | ha
      · exact ⟨_, List.mem_cons_self, hab⟩
      · obtain ⟨b, hb, hf⟩ := ih.1 a ha
        exact ⟨b, List.mem_cons_of_mem _ hb, hf⟩
    · intro b hb
      rcases List.mem_cons.mp hb with rfl | hb
      · exact ⟨_, List.mem_cons_self, hab⟩
      · obtain ⟨a, ha, hf⟩ := ih.2 b hb
        exact ⟨a, List.mem_cons_of_mem _ ha, hf⟩

theorem exists_forall₂ {α β : Type} {R : α → β → Prop} {as : List α}
    (h : ∀ a ∈ as, ∃ b, R a b) : ∃ bs, List.Forall₂ R as bs := by
  induction as with
  | nil => exact ⟨[], .nil⟩
  | cons a rest ih =>
    obtain ⟨b, hb⟩ := h a List.mem_cons_self
    obtain ⟨bs, hbs⟩ := ih fun c hc => h c (List.mem_cons_of_mem _ hc)
    exact ⟨b :: bs, .cons hb hbs⟩

theorem mapM_eq_some_iff {α β : Type} {f : α → Option β} {as : List α} {bs : List β} :
    as.mapM f = some bs ↔ List.Forall₂ (fun a b => f a = some b) as bs := by
  induction as generalizing bs with
  | nil =>
    constructor
    · rintro ⟨⟩
      exact .nil
    · rintro ⟨⟩
      rfl
  | cons a rest ih =>
    simp only [List.mapM_cons, Option.bind_eq_bind, Option.bind_eq_some_iff, Option.pure_def,
      Option.some.injEq]
    constructor
    · rintro ⟨b, hb, bs, hbs, rfl⟩
      exact .cons hb (ih.mp hbs)
    · rintro (_ | ⟨hb, hbs⟩)
      exact ⟨_, hb, _, ih.mpr hbs, rfl⟩

theorem exists_bind {α β ε : Type} {x : Except ε α} {f : α → Except ε β} (hx : ∃ a, x = .ok a)
    (hf : ∀ a, ∃ b, f a = .ok b) : ∃ b, (x >>= f) = .ok b := by
  obtain ⟨a, rfl⟩ := hx
  exact hf a

theorem error_of_bind {α β ε : Type} {x : Except ε α} {f : α → Except ε β} {e : ε}
    (h : (x >>= f) = .error e) : x = .error e ∨ ∃ a, x = .ok a ∧ f a = .error e := by
  cases x with
  | error e' =>
    cases h
    exact .inl rfl
  | ok a => exact .inr ⟨a, rfl, h⟩

theorem exists_mapM {α β ε : Type} {f : α → Except ε β} {as : List α}
    (h : ∀ a ∈ as, ∃ b, f a = .ok b) : ∃ bs, as.mapM f = .ok bs := by
  induction as with
  | nil => exact ⟨[], rfl⟩
  | cons a rest ih =>
    rw [List.mapM_cons]
    refine exists_bind (h a List.mem_cons_self) fun b => ?_
    exact exists_bind (ih fun c hc => h c (List.mem_cons_of_mem _ hc)) fun bs => ⟨_, rfl⟩

/-- A list of computations fails with the error of the first one that does. -/
theorem first_error_of_mapM {α β ε : Type} {f : α → Except ε β} {as : List α} {e : ε}
    (h : as.mapM f = .error e) : ∃ front a back, as = front ++ a :: back ∧
      (∀ b ∈ front, ∃ c, f b = .ok c) ∧ f a = .error e := by
  induction as with
  | nil => cases h
  | cons a rest ih =>
    rw [List.mapM_cons] at h
    rcases error_of_bind h with ha | ⟨b, hb, h⟩
    · exact ⟨[], a, rest, rfl, nofun, ha⟩
    rcases error_of_bind h with hrest | ⟨bs, -, h⟩
    · obtain ⟨front, c, back, rfl, hfront, hc⟩ := ih hrest
      exact ⟨a :: front, c, back, rfl, List.forall_mem_cons.mpr ⟨⟨b, hb⟩, hfront⟩, hc⟩
    · cases h

theorem error_of_mapM {α β ε : Type} {f : α → Except ε β} {as : List α} {e : ε}
    (h : as.mapM f = .error e) : ∃ a ∈ as, f a = .error e := by
  obtain ⟨front, a, back, rfl, -, ha⟩ := first_error_of_mapM h
  exact ⟨a, List.mem_append_right _ List.mem_cons_self, ha⟩

theorem exists_allM {α ε : Type} {p : α → Except ε Bool} {as : List α}
    (h : ∀ a ∈ as, ∃ b, p a = .ok b) :
    ∃ b, as.allM p = .ok b ∧ (b = true ↔ ∀ a ∈ as, p a = .ok true) := by
  induction as with
  | nil => exact ⟨true, rfl, by simp⟩
  | cons a rest ih =>
    obtain ⟨b, hb, hall⟩ := ih fun c hc => h c (List.mem_cons_of_mem _ hc)
    obtain ⟨c, hc⟩ := h a List.mem_cons_self
    rw [List.allM, hc]
    cases c with
    | true => exact ⟨b, hb, by rw [hall, List.forall_mem_cons, hc]; simp⟩
    | false => exact ⟨false, rfl, by rw [List.forall_mem_cons, hc]; simp⟩

/-- A computation with a result as `R` says if `P` holds, and an error of one code otherwise. -/
inductive Settles {α : Type} (c : ErrorCode) (P : Prop) (R : α → Prop) : Except Error α → Prop
  | ok {a : α} (hP : P) (ha : R a) : Settles c P R (.ok a)
  | error {e : Error} (hP : ¬P) (he : e.code? = some c) : Settles c P R (.error e)

namespace Settles
variable {α β : Type} {c : ErrorCode} {P Q : Prop} {R : α → Prop} {S : β → Prop}
  {x : Except Error α}

/-- One step of many: the condition of all of them needs that of the step, and what follows the step
settles it when that holds. -/
theorem bind {f : α → Except Error β} (h : Settles c P R x) (hQ : Q → P)
    (hf : ∀ a, P → R a → Settles c Q S (f a)) : Settles c Q S (x >>= f) := by
  cases h with
  | ok hP ha => exact hf _ hP ha
  | error hP he => exact .error (fun h => hP (hQ h)) he

theorem map {f : α → β} (h : Settles c P R x) (hf : ∀ a, R a → S (f a)) :
    Settles c P S (x.map f) := by
  cases h with
  | ok hP ha => exact .ok hP (hf _ ha)
  | error hP he => exact .error hP he

theorem imp {R' : α → Prop} (h : Settles c P R x) (hR : ∀ a, R a → R' a) : Settles c P R' x := by
  cases h with
  | ok hP ha => exact .ok hP (hR _ ha)
  | error hP he => exact .error hP he

/-- There is a result exactly if the condition holds. -/
theorem exists_ok_iff (h : Settles c P R x) : (∃ a, x = .ok a) ↔ P := by
  cases h with
  | ok hP ha => exact ⟨fun _ => hP, fun _ => ⟨_, rfl⟩⟩
  | error hP he => exact ⟨nofun, fun h => absurd h hP⟩

theorem of_ok {a : α} (h : Settles c P R (.ok a)) : R a := by
  cases h with
  | ok _ ha => exact ha

theorem of_error {e : Error} (h : Settles c P R (.error e)) : ¬P ∧ e.code? = some c := by
  cases h with
  | error hP he => exact ⟨hP, he⟩

end Settles

/-- Computations that fail alike or have related results. -/
inductive Agree {α β : Type} (R : α → β → Prop) : Except Error α → Except Error β → Prop
  | error (e : Error) : Agree R (.error e) (.error e)
  | ok {a : α} {b : β} (h : R a b) : Agree R (.ok a) (.ok b)

theorem Agree.bind {α β γ δ : Type} {R : α → β → Prop} {S : γ → δ → Prop} {x : Except Error α}
    {y : Except Error β} {f : α → Except Error γ} {f' : β → Except Error δ} (h : Agree R x y)
    (hf : ∀ a b, R a b → Agree S (f a) (f' b)) : Agree S (x >>= f) (y >>= f') := by
  cases h with
  | error e => exact .error e
  | ok h => exact hf _ _ h

theorem Agree.of_eq {α : Type} {x y : Except Error α} (h : x = y) : Agree Eq x y := by
  subst h
  cases x with
  | error e => exact .error e
  | ok a => exact .ok rfl

theorem Agree.mapM {α β γ δ : Type} {R : α → β → Prop} {S : γ → δ → Prop} {as : List α}
    {bs : List β} {f : α → Except Error γ} {f' : β → Except Error δ} (h : List.Forall₂ R as bs)
    (hf : ∀ a b, R a b → Agree S (f a) (f' b)) :
    Agree (List.Forall₂ S) (as.mapM f) (bs.mapM f') := by
  induction h with
  | nil => exact .ok .nil
  | cons hab _ ih =>
    rw [List.mapM_cons, List.mapM_cons]
    refine (hf _ _ hab).bind fun c d hcd => ?_
    refine ih.bind fun cs ds hcds => ?_
    exact .ok (.cons hcd hcds)

end FlowLint
