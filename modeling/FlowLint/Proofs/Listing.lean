import FlowLint.Proofs.Graph.Flow
import Mathlib.Data.List.Nodup

/-! # Listings that are accepted

A listing is a method when no label stands twice and every target is the label of a statement. The
method has the same statements at the same positions, and its jumps go to the positions of their
labels. It has a control flow unless a jump lacks its target.
-/
namespace FlowLint

namespace Action
variable {τ σ : Type} {R : τ → σ → Prop} {f : τ → Option σ} {a : Action τ} {b : Action σ}

/-- One action with targets of two types. Targets are there in both or in neither. -/
inductive Retargeted (R : τ → σ → Prop) : Action τ → Action σ → Prop
  | nop (label : String) : Retargeted R (.nop label) (.nop label)
  | assign (p : LValue) (v : Expr) : Retargeted R (.assign p v) (.assign p v)
  | invoke (p : Option LValue) (v : Expr) : Retargeted R (.invoke p v) (.invoke p v)
  | branch (c : Expr) {t : Option τ} {u : Option σ} (h : Option.Rel R t u) :
    Retargeted R (.branch c t) (.branch c u)
  | goto {t : Option τ} {u : Option σ} (h : Option.Rel R t u) : Retargeted R (.goto t) (.goto u)
  | switch (x : Var) {cases : List (Int × Option τ)} {cases' : List (Int × Option σ)}
    {d : Option τ} {d' : Option σ}
    (hcases : List.Forall₂ (fun c c' => c.1 = c'.1 ∧ Option.Rel R c.2 c'.2) cases cases')
    (hdefault : Option.Rel R d d') : Retargeted R (.switch x cases d) (.switch x cases' d')
  | ret (v : Option Expr) : Retargeted R (.ret v) (.ret v)

theorem isSome_of_rel {t : Option τ} {u : Option σ} (h : Option.Rel R t u) :
    t.isSome = u.isSome := by
  cases h <;> rfl

theorem exists_of_rel {t : Option τ} {u : Option σ} (h : Option.Rel R t u) {x : τ} (hx : x ∈ t) :
    ∃ y, R x y := by
  cases h with
  | some h =>
    cases hx
    exact ⟨_, h⟩
  | none => cases hx

theorem rel_imp {S : τ → σ → Prop} (hrs : ∀ t u, R t u → S t u) {t : Option τ} {u : Option σ}
    (h : Option.Rel R t u) : Option.Rel S t u := by
  cases h with
  | some h => exact .some (hrs _ _ h)
  | none => exact .none

theorem Retargeted.imp {S : τ → σ → Prop} (hrs : ∀ t u, R t u → S t u) (h : Retargeted R a b) :
    Retargeted S a b := by
  cases h with
  | nop label => exact .nop label
  | assign p v => exact .assign p v
  | invoke p v => exact .invoke p v
  | branch c h => exact .branch c (rel_imp hrs h)
  | goto h => exact .goto (rel_imp hrs h)
  | switch x hcases hd =>
    exact .switch x (hcases.imp fun _ _ hc => ⟨hc.1, rel_imp hrs hc.2⟩) (rel_imp hrs hd)
  | ret v => exact .ret v

theorem Retargeted.complete (h : Retargeted R a b) : a.Complete ↔ b.Complete := by
  cases h with
  | nop | assign | invoke | ret => exact Iff.rfl
  | branch c h | goto h => rw [Complete, Complete, isSome_of_rel h]
  | switch x hcases hd =>
    obtain ⟨hleft, hright⟩ := mem_of_forall₂ hcases
    constructor
    · intro h c' hc'
      obtain ⟨c, hc, -, hrel⟩ := hright c' hc'
      rw [← isSome_of_rel hrel]
      exact h c hc
    · intro h c hc
      obtain ⟨c', hc', -, hrel⟩ := hleft c hc
      rw [isSome_of_rel hrel]
      exact h c' hc'

theorem Retargeted.exists_of_mem (h : Retargeted R a b) : ∀ t ∈ a.targets, ∃ u, R t u := by
  intro t ht
  cases h with
  | nop | assign | invoke | ret => cases ht
  | branch c h | goto h => exact exists_of_rel h (Option.mem_toList.mp ht)
  | switch x hcases hd =>
    rcases List.mem_append.mp ht with ht | ht
    · obtain ⟨c, hc, ht⟩ := List.mem_filterMap.mp ht
      obtain ⟨c', -, -, hrel⟩ := (mem_of_forall₂ hcases).1 c hc
      exact exists_of_rel hrel ht
    · exact exists_of_rel hd (Option.mem_toList.mp ht)

theorem resolveTarget_eq_some_iff {t : Option τ} {u : Option σ} :
    resolveTarget f t = some u ↔ Option.Rel (fun x y => f x = some y) t u := by
  cases t with
  | none =>
    constructor
    · rintro ⟨⟩
      exact .none
    · rintro ⟨⟩
      rfl
  | some x =>
    rw [resolveTarget, Option.map_eq_some_iff]
    constructor
    · rintro ⟨y, hy, rfl⟩
      exact .some hy
    · rintro (⟨hy⟩ | _)
      exact ⟨_, hy, rfl⟩

/-- To resolve an action is to find its counterpart with the images for targets. -/
theorem resolve_eq_some_iff :
    a.resolve f = some b ↔ Retargeted (fun t u => f t = some u) a b := by
  cases a with
  | nop | assign | invoke | ret =>
    constructor
    · rintro ⟨⟩
      constructor
    · rintro ⟨⟩
      rfl
  | branch c t | goto t =>
    rw [resolve, Option.map_eq_some_iff]
    constructor
    · rintro ⟨u, hu, rfl⟩
      constructor
      exact resolveTarget_eq_some_iff.mp hu
    · rintro (_ | _)
      exact ⟨_, resolveTarget_eq_some_iff.mpr ‹_›, rfl⟩
  | switch x cases d =>
    simp only [resolve, Option.bind_eq_bind, Option.bind_eq_some_iff, Option.pure_def,
      Option.some.injEq, mapM_eq_some_iff, resolveTarget_eq_some_iff]
    constructor
    · rintro ⟨cases', hcases, d', hd, rfl⟩
      refine .switch x (hcases.imp ?_) hd
      rintro c c' hc
      obtain ⟨t, ht, rfl⟩ := Option.map_eq_some_iff.mp hc
      exact ⟨rfl, resolveTarget_eq_some_iff.mp ht⟩
    · rintro (_ | _ | _ | _ | _ | ⟨-, hcases, hd⟩)
      refine ⟨_, hcases.imp ?_, _, hd, rfl⟩
      rintro ⟨n, t⟩ ⟨n', t'⟩ ⟨rfl, hrel⟩
      exact Option.map_eq_some_iff.mpr ⟨t', resolveTarget_eq_some_iff.mpr hrel, rfl⟩

theorem exists_rel {t : Option τ} (h : ∀ x ∈ t, ∃ y, R x y) : ∃ u, Option.Rel R t u := by
  cases t with
  | none => exact ⟨none, .none⟩
  | some x =>
    obtain ⟨y, hy⟩ := h x rfl
    exact ⟨some y, .some hy⟩

theorem exists_retargeted (h : ∀ t ∈ a.targets, ∃ u, R t u) : ∃ b, Retargeted R a b := by
  cases a with
  | nop label => exact ⟨_, .nop label⟩
  | assign p v => exact ⟨_, .assign p v⟩
  | invoke p v => exact ⟨_, .invoke p v⟩
  | ret v => exact ⟨_, .ret v⟩
  | branch c t =>
    obtain ⟨u, hu⟩ := exists_rel fun x hx => h x (Option.mem_toList.mpr hx)
    exact ⟨_, .branch c hu⟩
  | goto t =>
    obtain ⟨u, hu⟩ := exists_rel fun x hx => h x (Option.mem_toList.mpr hx)
    exact ⟨_, .goto hu⟩
  | switch x cases d =>
    have harms : ∀ c ∈ cases, ∃ c' : Int × Option σ, c.1 = c'.1 ∧ Option.Rel R c.2 c'.2 := by
      intro c hc
      obtain ⟨u, hu⟩ := exists_rel fun t ht =>
        h t (List.mem_append_left _ (List.mem_filterMap.mpr ⟨c, hc, ht⟩))
      exact ⟨(c.1, u), rfl, hu⟩
    obtain ⟨cases', hcases⟩ := exists_forall₂ harms
    obtain ⟨d', hd⟩ := exists_rel fun t ht =>
      h t (List.mem_append_right _ (Option.mem_toList.mpr ht))
    exact ⟨_, .switch x hcases hd⟩

end Action

namespace Listing
variable {l : Listing} {m : Method}

theorem repeated?_eq_none_iff : l.repeated? = none ↔ l.labels.Nodup := by
  -- positions are searched among the items but looked up among the labels
  have hlength : l.labels.length = l.items.length := List.length_map _
  rw [repeated?, List.find?_eq_none, List.nodup_iff_getElem?_ne_getElem?]
  constructor
  · intro h i j hij hj heq
    have hj' := h j (List.mem_range.mpr (hlength ▸ hj))
    rw [List.getElem?_eq_getElem hj] at heq hj'
    refine hj' (List.contains_iff_mem.mpr (List.mem_take_iff_getElem.mpr ⟨i, by omega, ?_⟩))
    exact (List.getElem?_eq_some_iff.mp heq).2
  · intro h j hj hrepeated
    rw [List.mem_range, ← hlength] at hj
    rw [List.getElem?_eq_getElem hj] at hrepeated
    obtain ⟨i, hi, heq⟩ := List.mem_take_iff_getElem.mp (List.contains_iff_mem.mp hrepeated)
    refine h i j (by omega) hj ?_
    rw [List.getElem?_eq_getElem hj, List.getElem?_eq_getElem (by omega), heq]

theorem getElem?_of_position? {label i : Nat} (h : l.position? label = some i) :
    l.labels[i]? = some label := by
  obtain ⟨hi, heq, -⟩ := List.idxOf?_eq_some_iff.mp h
  exact List.getElem?_eq_some_iff.mpr ⟨hi, heq⟩

theorem exists_position?_iff {label : Nat} :
    (∃ i, l.position? label = some i) ↔ label ∈ l.labels := by
  rw [← Option.isSome_iff_exists]
  exact List.isSome_idxOf?

/-- A statement of a method in place of a statement of the listing: on the same line, with the
positions of the labels for targets. -/
def Stands (l : Listing) (p : Nat × Stmt Nat) (s : Stmt Nat) : Prop :=
  s.line = p.2.line ∧
    p.2.action.Retargeted (fun label i => l.labels[i]? = some label) s.action

theorem stands_of_resolve? {p : Nat × Stmt Nat} {s : Stmt Nat} (h : l.resolve? p.2 = some s) :
    l.Stands p s := by
  obtain ⟨a, ha, rfl⟩ := Option.map_eq_some_iff.mp h
  exact ⟨rfl, (Action.resolve_eq_some_iff.mp ha).imp fun _ _ => getElem?_of_position?⟩

theorem exists_resolve?_iff {s : Stmt Nat} :
    (∃ s', l.resolve? s = some s') ↔ ∀ t ∈ s.action.targets, t ∈ l.labels := by
  constructor
  · rintro ⟨s', h⟩ t ht
    obtain ⟨a, ha, -⟩ := Option.map_eq_some_iff.mp h
    exact exists_position?_iff.mp ((Action.resolve_eq_some_iff.mp ha).exists_of_mem t ht)
  · intro h
    obtain ⟨a, ha⟩ := Action.exists_retargeted fun t ht => exists_position?_iff.mpr (h t ht)
    rw [resolve?, Action.resolve_eq_some_iff.mpr ha]
    exact ⟨_, rfl⟩

theorem resolveBody_ok {i : Nat} {items : List (Nat × Stmt Nat)} {body : List (Stmt Nat)}
    (h : l.resolveBody i items = .ok body) : List.Forall₂ l.Stands items body := by
  induction items generalizing i body with
  | nil =>
    cases h
    exact .nil
  | cons p rest ih =>
    rw [resolveBody] at h
    split at h
    · cases h
    · next s hs =>
      obtain ⟨tail, htail, rfl⟩ := exists_of_map h
      exact .cons (stands_of_resolve? hs) (ih htail)

/-- Statements are resolved together exactly if each of them can be. -/
theorem resolveBody_spec (i : Nat) (items : List (Nat × Stmt Nat)) :
    ((∃ body, l.resolveBody i items = .ok body) ∧
      ∀ p ∈ items, ∀ t ∈ p.2.action.targets, t ∈ l.labels) ∨
    (∃ e, l.resolveBody i items = .error e ∧ e.code? = some .danglingTarget) ∧
      ∃ p ∈ items, ∃ t ∈ p.2.action.targets, t ∉ l.labels := by
  induction items generalizing i with
  | nil => exact .inl ⟨⟨[], rfl⟩, nofun⟩
  | cons p rest ih =>
    rw [resolveBody]
    cases hs : l.resolve? p.2 with
    | none =>
      refine .inr ⟨⟨_, rfl, rfl⟩, p, List.mem_cons_self, ?_⟩
      by_contra! htargets
      obtain ⟨s, h⟩ := exists_resolve?_iff.mpr htargets
      rw [hs] at h
      cases h
    | some s =>
      have hhere := exists_resolve?_iff.mp ⟨s, hs⟩
      rcases ih (i + 1) with ⟨⟨body, hbody⟩, hrest⟩ | ⟨⟨e, he, hcode⟩, q, hq, ht⟩
      · exact .inl ⟨⟨s :: body, by rw [hbody]; rfl⟩, List.forall_mem_cons.mpr ⟨hhere, hrest⟩⟩
      · exact .inr ⟨⟨e, by rw [he]; rfl, hcode⟩, q, List.mem_cons_of_mem _ hq, ht⟩

/-- A method that a listing is: the same data, and for every statement its own at its position. -/
structure Accepts (l : Listing) (m : Method) : Prop where
  name_eq : m.name = l.name
  file_eq : m.file = l.file
  params_eq : m.params = l.params
  body : List.Forall₂ l.Stands l.items m.body

/-- A listing is a method or has one of two defects. A repeated label comes before a target that
is no label. -/
theorem toMethod_spec (l : Listing) :
    ((∃ e, l.toMethod = .error e ∧ e.code? = some .unknownStatement) ∧ ¬l.labels.Nodup) ∨
    ((∃ e, l.toMethod = .error e ∧ e.code? = some .danglingTarget) ∧ l.labels.Nodup ∧
      ∃ p ∈ l.items, ∃ t ∈ p.2.action.targets, t ∉ l.labels) ∨
    (∃ m, l.toMethod = .ok m ∧ l.Accepts m) ∧ l.labels.Nodup ∧
      ∀ p ∈ l.items, ∀ t ∈ p.2.action.targets, t ∈ l.labels := by
  cases hrepeated : l.repeated? with
  | some i =>
    refine .inl ⟨?_, fun h => ?_⟩
    · rw [toMethod, hrepeated]
      exact ⟨_, rfl, rfl⟩
    · rw [repeated?_eq_none_iff.mpr h] at hrepeated
      cases hrepeated
  | none =>
    have hnodup := repeated?_eq_none_iff.mp hrepeated
    rcases l.resolveBody_spec 0 l.items with ⟨⟨body, hbody⟩, h⟩ | ⟨⟨e, he, hcode⟩, h⟩
    · refine .inr (.inr ⟨?_, hnodup, h⟩)
      rw [toMethod, hrepeated]
      dsimp only
      split
      · next e he =>
        rw [hbody] at he
        cases he
      · next body' hbody' => exact ⟨_, rfl, rfl, rfl, rfl, resolveBody_ok hbody'⟩
    · refine .inr (.inl ⟨⟨e, ?_, hcode⟩, hnodup, h⟩)
      rw [toMethod, hrepeated]
      dsimp only
      split
      · next e' he' =>
        rw [he] at he'
        cases he'
        rfl
      · next body hbody =>
        rw [he] at hbody
        cases hbody

theorem Accepts.complete_iff (h : l.Accepts m) :
    (∀ s ∈ m.body, s.action.Complete) ↔ ∀ p ∈ l.items, p.2.action.Complete := by
  obtain ⟨hitems, hbody⟩ := mem_of_forall₂ h.body
  constructor
  · intro hcomplete p hp
    obtain ⟨s, hs, -, hsame⟩ := hitems p hp
    exact hsame.complete.mpr (hcomplete s hs)
  · intro hcomplete s hs
    obtain ⟨p, hp, -, hsame⟩ := hbody s hs
    exact hsame.complete.mp (hcomplete p hp)

/-- A listing that is a method has a control flow unless a jump or a case lacks its target. -/
theorem Accepts.build_iff (h : l.Accepts m) :
    ((∃ e, Graph.build m = .error e ∧ e.code? = some .danglingTarget) ↔
      ∃ p ∈ l.items, ¬p.2.action.Complete) ∧
    ((∃ g, Graph.build m = .ok g) ↔ ∀ p ∈ l.items, p.2.action.Complete) := by
  rw [Graph.build_error_iff, Graph.exists_build_iff, ← h.complete_iff]
  refine ⟨?_, Iff.rfl⟩
  have hcomplete := not_congr h.complete_iff
  push Not at hcomplete
  exact hcomplete

/-- What becomes of a listing. It is turned down for a repeated label, otherwise for a target that
is no label, and is a method otherwise. That method has a control flow unless a jump or a case
lacks its target, and then it has exactly the edges that its statements ask for. -/
theorem acceptance_and_flow (l : Listing) :
    ((∃ e, l.toMethod = .error e ∧ e.code? = some .unknownStatement) ↔ ¬l.labels.Nodup) ∧
    ((∃ e, l.toMethod = .error e ∧ e.code? = some .danglingTarget) ↔
      l.labels.Nodup ∧ ∃ p ∈ l.items, ∃ t ∈ p.2.action.targets, t ∉ l.labels) ∧
    ((∃ m, l.toMethod = .ok m) ↔
      l.labels.Nodup ∧ ∀ p ∈ l.items, ∀ t ∈ p.2.action.targets, t ∈ l.labels) ∧
    ∀ m, l.toMethod = .ok m → l.Accepts m ∧
      ((∃ e, Graph.build m = .error e ∧ e.code? = some .danglingTarget) ↔
        ∃ p ∈ l.items, ¬p.2.action.Complete) ∧
      ((∃ g, Graph.build m = .ok g) ↔ ∀ p ∈ l.items, p.2.action.Complete) ∧
      ∀ g, Graph.build m = .ok g → g.IsFlowOf m := by
  -- each outcome excludes the two others, by its code or by its condition
  rcases l.toMethod_spec with
    ⟨⟨e, he, hcode⟩, hrepeated⟩ | ⟨⟨e, he, hcode⟩, hnodup, hout⟩ | ⟨⟨m, hm, hacc⟩, hnodup, hin⟩
  · simp [he, hcode, hrepeated]
  · have hin : ¬∀ p ∈ l.items, ∀ t ∈ p.2.action.targets, t ∈ l.labels := by
      push Not
      exact hout
    rw [he]
    refine ⟨⟨?_, fun h => absurd hnodup h⟩, ⟨fun _ => ⟨hnodup, hout⟩, fun _ => ⟨e, rfl, hcode⟩⟩,
      ⟨nofun, fun h => absurd h.2 hin⟩, nofun⟩
    rintro ⟨_, ⟨⟩, h⟩
    rw [hcode] at h
    cases h
  · have hout : ¬∃ p ∈ l.items, ∃ t ∈ p.2.action.targets, t ∉ l.labels := by
      push Not
      exact hin
    obtain ⟨herror, hok⟩ := hacc.build_iff
    rw [hm]
    refine ⟨⟨nofun, fun h => absurd hnodup h⟩, ⟨nofun, fun h => absurd h.2 hout⟩,
      ⟨fun _ => ⟨hnodup, hin⟩, fun _ => ⟨m, rfl⟩⟩, ?_⟩
    rintro _ ⟨⟩
    exact ⟨hacc, herror, hok, fun g => Graph.build_isFlowOf⟩

/-- A switch with one case twice and no default, behind a jump to itself. -/
example : ((Listing.mk "f" "" [] [(7, ⟨1, .goto (some 7)⟩), (4, ⟨2, .switch ⟨"x", "x", .prim .int⟩
    [(0, some 7), (0, some 7)] none⟩)]).toMethod >>= Graph.build).map (·.edges) = .ok [
      ⟨.entry, .stmt 0, .normal, none⟩, ⟨.stmt 0, .stmt 0, .normal, none⟩,
      ⟨.stmt 1, .stmt 0, .switchCase, some 0⟩, ⟨.stmt 1, .stmt 0, .switchCase, some 0⟩] := rfl

end Listing

end FlowLint
