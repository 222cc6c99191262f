import FlowLint.Proofs.Dataflow.Liveness
import FlowLint.Proofs.Effects

/-! # Removal of useless assignments

All assignments that liveness finds useless are removed at once. The runs of the two bodies stay in
lockstep on every machine: they differ in variables that are not live only.
-/
namespace FlowLint

namespace Stmt

def isFlat (s : Stmt Nat) : Bool :=
  match s.action.definition? with
  | some (_, e) => e.isFlat
  | none => true

/-- The expression that a useless statement evaluates is inert, if the statement is flat. -/
theorem exists_inert {s : Stmt Nat} {live : LiveSet} (hflat : s.isFlat = true)
    (hs : s.isUseless live = true) :
    ∃ place e, s.action.definition? = some (place, e) ∧ e.Inert := by
  rw [isUseless] at hs
  split at hs
  · next x e hd =>
    rw [isFlat, hd] at hflat
    exact ⟨_, e, hd, (Expr.inert_iff_isEffectFree hflat).mpr (Bool.and_eq_true_iff.mp hs).2⟩
  · cases hs

/-- The statement, or one that does nothing if it is useless. -/
def unlessUseless (s : Stmt Nat) (liveAfter : LiveSet) : Stmt Nat :=
  if s.isUseless liveAfter then ⟨s.line, .nop "nop"⟩ else s

theorem targets_unlessUseless {s : Stmt Nat} {liveAfter : LiveSet} {t : Nat}
    (h : t ∈ (s.unlessUseless liveAfter).action.targets) : t ∈ s.action.targets := by
  rw [unlessUseless] at h
  split at h
  · cases h
  · exact h

end Stmt

namespace Method

def Flat (m : Method) : Prop := ∀ s ∈ m.body, s.isFlat = true

instance (m : Method) : Decidable m.Flat :=
  inferInstanceAs (Decidable (∀ s ∈ m.body, s.isFlat = true))

/-- The method without its useless assignments. Positions stay what they are. -/
def withoutUseless (m : Method) (liveAfter : Node → LiveSet) : Method where
  name := m.name
  file := m.file
  params := m.params
  body := m.body.mapIdx fun i s => s.unlessUseless (liveAfter (.stmt i))
  targets_lt := by
    intro s hs t ht
    obtain ⟨i, hi, rfl⟩ := List.mem_mapIdx.mp hs
    rw [List.length_mapIdx]
    exact m.targets_lt _ (List.getElem_mem hi) t (Stmt.targets_unlessUseless ht)

theorem body_withoutUseless (m : Method) (liveAfter : Node → LiveSet) (i : Nat) :
    (m.withoutUseless liveAfter).body[i]? =
      m.body[i]?.map fun s => s.unlessUseless (liveAfter (.stmt i)) := List.getElem?_mapIdx

end Method

/-- Two runs stand at the same position with the same effects behind them, and their stores agree
on what is live there. -/
structure Snapshot.Agrees {V : Type} (m : Method) (live : Node → LiveSet) (c c' : Snapshot V) :
    Prop where
  position : c'.position = c.position
  effects : c'.effects = c.effects
  store : ∀ pc, c.position = .running pc → ∀ x, (live (m.nodeAt pc)).contains x = true →
    c'.store x = c.store x

variable {V : Type} {M : Machine V} {m : Method} {g : Graph} {s : Strategy} {bound : Int}
  {r : Solution LiveSet}

section
variable {i : Nat} {st : Stmt Nat} {σ τ : Var → V} {es : List (Effect V)}
variable (hb : Graph.build m = .ok g) (hr : solve Liveness.analysis s bound g = .ok r)
  (hconv : r.converged = true)
include hb hr hconv

section
variable (hst : m.body[i]? = some st)
include hst

theorem contains_before {x : Var} : (r.before (.stmt i)).contains x = true ↔
    x ∈ st.action.uses ∨ (r.after (.stmt i)).contains x = true ∧ st.action.defines? ≠ some x := by
  have htransfer := solve_transfer Liveness.lawful hb hr hconv hst
  rw [Solution.before_backward (solve_eq hr).1, Solution.after_backward (solve_eq hr).1,
    ← Except.ok.inj htransfer]
  exact Liveness.contains_liveBefore

/-- What is live where an edge ends is live after the statement that it starts from. -/
theorem contains_after {x : Var} {e : Edge} (he : m.Flow i st.action e)
    (hx : (r.before e.target).contains x = true) : (r.after (.stmt i)).contains x = true := by
  obtain ⟨-, hg, -, hedges⟩ := Graph.build_spec hb
  have hmem : e ∈ g.edges := (hedges e).mpr (.inr ⟨i, st, hst, he⟩)
  have hsucc : e.target ∈ g.successors (.stmt i) :=
    (Graph.mem_successors hg).mpr ⟨e, hmem, he.source, rfl⟩
  have hle := solve_flow Liveness.lawful hg hr hconv hsucc (stmt_ne_startNode i _)
  rw [Solution.before_backward (solve_eq hr).1] at hx
  rw [Solution.after_backward (solve_eq hr).1]
  exact FactSet.subset_iff.mp hle x hx

/-- Where an action goes on, the variables that it does not assign are live before it if they are
live at the next position. -/
theorem live_of_perform {x : Var} {es' : List (Effect V)} {b : Option (Var × V)} {j : Nat}
    (hp : M.perform σ (i + 1) st.action es = (some (b, .running j), es'))
    (hx : (r.before (m.nodeAt j)).contains x = true) :
    (r.after (.stmt i)).contains x = true ∧
      (b.map (·.1) ≠ some x → (r.before (.stmt i)).contains x = true) := by
  obtain ⟨hdef, e, hflow, htarget⟩ :=
    Machine.perform_spec (m.targets_lt st (List.mem_of_getElem? hst)) hp
  rw [← htarget] at hx
  have hafter := contains_after hb hr hconv hst hflow hx
  refine ⟨hafter, fun hne => (contains_before hb hr hconv hst).mpr (.inr ⟨hafter, ?_⟩)⟩
  rwa [← hdef]

section
variable (hστ : ∀ x, (r.before (.stmt i)).contains x = true → τ x = σ x)
include hστ

/-- A useless assignment changes a variable that is not live afterwards, and nothing else. -/
theorem step_useless (hflat : st.isFlat = true) (hs : st.isUseless (r.after (.stmt i)) = true) :
    (M.step m ⟨.running i, σ, es⟩).Agrees m r.before ⟨.running (i + 1), τ, es⟩ := by
  obtain ⟨place, e, hdef, he⟩ := Stmt.exists_inert hflat hs
  obtain ⟨x, v, -, hlive, hperform⟩ :=
    Machine.perform_useless (M := M) (σ := σ) hdef he hs (i + 1)
  have hrun : M.perform σ (i + 1) st.action es = (some (some (x, v), .running (i + 1)), es) := by
    rw [hperform]
    rfl
  have hstep : M.step m ⟨.running i, σ, es⟩ = ⟨.running (i + 1), assign σ (some (x, v)), es⟩ := by
    simp only [Machine.step, hst, hrun]
  rw [hstep]
  refine ⟨rfl, rfl, ?_⟩
  rintro j hj y hy
  cases hj
  obtain ⟨hafter, hbefore⟩ := live_of_perform hb hr hconv hst hrun hy
  have hne : y ≠ x := by
    rintro rfl
    rw [hlive] at hafter
    cases hafter
  have hy' := hbefore fun he => hne (Option.some.inj he).symm
  exact (hστ y hy').trans (if_neg hne).symm

/-- A statement that is kept does the same in stores that agree on what is live before it. -/
theorem step_kept {m' : Method} (hst' : m'.body[i]? = some st) :
    (M.step m ⟨.running i, σ, es⟩).Agrees m r.before (M.step m' ⟨.running i, τ, es⟩) := by
  have huses : ∀ x ∈ st.action.uses, τ x = σ x := by
    intro x hx
    exact hστ x ((contains_before hb hr hconv hst).mpr (.inl hx))
  simp only [Machine.step, hst, hst', Machine.perform_congr huses]
  rcases hp : M.perform σ (i + 1) st.action es with ⟨_ | ⟨b, position⟩, es'⟩
  · exact ⟨rfl, rfl, nofun⟩
  · refine ⟨rfl, rfl, ?_⟩
    rintro j rfl x hx
    obtain ⟨-, hbefore⟩ := live_of_perform hb hr hconv hst hp hx
    cases b with
    | none => exact hστ x (hbefore nofun)
    | some p =>
      by_cases hxp : x = p.1
      · exact (if_pos hxp).trans (if_pos hxp).symm
      · have hx' := hστ x (hbefore fun he => hxp (Option.some.inj he).symm)
        exact (if_neg hxp).trans (hx'.trans (if_neg hxp).symm)

end

end

theorem step_agrees (hflat : m.Flat) {c c' : Snapshot V} (h : c.Agrees m r.before c') :
    (M.step m c).Agrees m r.before (M.step (m.withoutUseless r.after) c') := by
  obtain ⟨position, σ, es⟩ := c
  obtain ⟨position', τ, es'⟩ := c'
  obtain ⟨hposition, heffects, hστ⟩ := h
  dsimp only at hposition heffects hστ
  subst hposition heffects
  cases position' with
  | trapped | returned => exact ⟨rfl, rfl, nofun⟩
  | running i =>
    have hbody := m.body_withoutUseless r.after i
    cases hst : m.body[i]? with
    | none =>
      rw [hst] at hbody
      simp only [Machine.step, hst, hbody, Option.map_none]
      exact ⟨rfl, rfl, hστ⟩
    | some st =>
      rw [hst, Option.map_some, Stmt.unlessUseless] at hbody
      have hagree : ∀ x, (r.before (.stmt i)).contains x = true → τ x = σ x := by
        rw [← Method.nodeAt_of_lt (Method.lt_size_of_body hst)]
        exact hστ i rfl
      split at hbody
      · next hs =>
        have hstep : M.step (m.withoutUseless r.after) ⟨.running i, τ, es'⟩ =
            ⟨.running (i + 1), τ, es'⟩ := by
          simp only [Machine.step, hbody]
          rfl
        rw [hstep]
        exact step_useless hb hr hconv hst hagree (hflat st (List.mem_of_getElem? hst)) hs
      · exact step_kept hb hr hconv hst hagree hbody

end

/-- The removal of all useless assignments is not observed: after any number of steps the two runs
from a store stand at the same position or have stopped alike, have the same effects behind them,
and agree on the variables that are live. -/
theorem run_withoutUseless (hb : Graph.build m = .ok g) (hflat : m.Flat)
    (hr : solve Liveness.analysis s bound g = .ok r) (hconv : r.converged = true) (M : Machine V)
    (σ : Var → V) (n : Nat) :
    (M.run m σ n).Agrees m r.before (M.run (m.withoutUseless r.after) σ n) := by
  induction n with
  | zero => exact ⟨rfl, rfl, fun _ _ _ _ => rfl⟩
  | succ n ih => exact step_agrees hb hr hconv hflat ih

/-- A method that adds twice and returns neither sum. -/
def wasteful : Method where
  name := "waste"
  file := "waste.ir"
  params := [⟨"n", "n", .prim .int⟩]
  body := [
    ⟨1, .assign (.var ⟨"t", "t", .prim .long⟩) (.bin .add (.var ⟨"n", "n", .prim .int⟩) (.lit 1))⟩,
    ⟨2, .assign (.var ⟨"t", "t", .prim .long⟩) (.bin .add (.var ⟨"t", "t", .prim .long⟩) (.lit 1))⟩,
    ⟨3, .invoke (some (.var ⟨"n", "n", .prim .int⟩))
      (.call "f" [.var ⟨"n", "n", .prim .int⟩] none)⟩,
    ⟨4, .ret (some (.var ⟨"n", "n", .prim .int⟩))⟩]
  targets_lt := by decide

/-- The second sum is removed. The first one stays, because the second one reads it. -/
theorem wasteful_agrees : ∃ g r, Graph.build wasteful = .ok g ∧ wasteful.Flat ∧
    solve Liveness.analysis .lifo 100 g = .ok r ∧ r.converged = true ∧
    (wasteful.body.mapIdx fun i st => st.isUseless (r.after (.stmt i))) =
      [false, true, false, false] ∧
    (words.run wasteful (fun _ => 5) 4).Agrees wasteful r.before
      (words.run (wasteful.withoutUseless r.after) (fun _ => 5) 4) := by
  obtain ⟨g, r, hb, hr, hconv, hbody⟩ : ∃ g r, Graph.build wasteful = .ok g ∧
    solve Liveness.analysis .lifo 100 g = .ok r ∧ r.converged = true ∧
    (wasteful.body.mapIdx fun i st => st.isUseless (r.after (.stmt i))) =
      [false, true, false, false] := ⟨_, _, rfl, rfl, rfl, rfl⟩
  have hflat : wasteful.Flat := by decide
  exact ⟨g, r, hb, hflat, hr, hconv, hbody,
    run_withoutUseless hb hflat hr hconv words (fun _ => 5) 4⟩

end FlowLint
