import FlowLint.Expr

/-! # Statements

Jump targets are of a type of their own: labels while a body is put together, positions in a
body that has been accepted.
-/
namespace FlowLint

inductive LValue where
  | var (x : Var)
  | field (name : String) (base : Option Var) (owner : String)
  | elem (base : Var) (index : Expr)
  deriving Inhabited

namespace LValue

def toExpr : LValue → Expr
  | var x => .var x
  | field name base owner => .field name base owner
  | elem base index => .elem base index

def text (l : LValue) : String := l.toExpr.text

def var? : LValue → Option Var
  | var x => some x
  | _ => none

def uses : LValue → List Var
  | var _ => []
  | l => l.toExpr.uses

end LValue

inductive Action (τ : Type) where
  | nop (label : String)
  | assign (place : LValue) (value : Expr)
  | invoke (place : Option LValue) (call : Expr)
  /-- Jumps when the condition holds and goes on to the next statement otherwise. -/
  | branch (condition : Expr) (target : Option τ)
  | goto (target : Option τ)
  /-- Jumps to the case of a variable's value. -/
  | switch (subject : Var) (cases : List (Int × Option τ)) (default : Option τ)
  | ret (value : Option Expr)
  deriving Inhabited

/-- A statement and its source line, which is positive for statements of the source text. -/
structure Stmt (τ : Type) where
  line : Int
  action : Action τ
  deriving Inhabited

namespace Action

variable {τ σ : Type}

/-- A target under a partial map, which has to be defined on a target that is there. -/
def resolveTarget (f : τ → Option σ) : Option τ → Option (Option σ)
  | none => some none
  | some t => (f t).map some

/-- An action under a partial map of targets, none where a target has no image. -/
def resolve (f : τ → Option σ) : Action τ → Option (Action σ)
  | nop label => some (.nop label)
  | assign place value => some (.assign place value)
  | invoke place call => some (.invoke place call)
  | branch condition target => (resolveTarget f target).map (.branch condition)
  | goto target => (resolveTarget f target).map .goto
  | switch subject cases default => do
    let cases ← cases.mapM fun c => (resolveTarget f c.2).map fun t => (c.1, t)
    let default ← resolveTarget f default
    return .switch subject cases default
  | ret value => some (.ret value)

def targets : Action τ → List τ
  | branch _ target | goto target => target.toList
  | switch _ cases default => cases.filterMap (·.2) ++ default.toList
  | _ => []

def fallsThrough : Action τ → Bool
  | goto _ | switch .. | ret _ => false
  | _ => true

def definition? : Action τ → Option (Option LValue × Expr)
  | assign place value => some (some place, value)
  | invoke place call => some (place, call)
  | _ => none

def place? : Action τ → Option LValue
  | assign place _ => some place
  | invoke place _ => place
  | _ => none

def defines? (a : Action τ) : Option Var := a.place?.bind LValue.var?

/-- The variables that are read, in reading order and with repeats. -/
def uses : Action τ → List Var
  | nop _ | goto _ => []
  | assign place value => value.uses ++ place.uses
  | invoke place call => call.uses ++ (place.map LValue.uses).getD []
  | branch condition _ => condition.uses
  | switch subject _ _ => [subject]
  | ret value => (value.map Expr.uses).getD []

def text (target : τ → String) : Action τ → String
  | nop label => label
  | assign place value => place.text ++ " = " ++ value.text
  | invoke none call => call.text
  | invoke (some place) call => place.text ++ " = " ++ call.text
  | branch condition t => "if (" ++ condition.text ++ ") goto " ++ jump t
  | goto t => "goto " ++ jump t
  | switch subject cases default =>
    let arms := cases.map fun c => toString c.1 ++ "->" ++ jump c.2
    "switch (" ++ subject.name ++ ") \x7b" ++ ", ".intercalate arms ++ ", default->" ++
      jump default ++ "\x7d"
  | ret none => "return"
  | ret (some value) => "return " ++ value.text
where
  /-- A target that is missing is shown as a question mark. -/
  jump (t : Option τ) : String := (t.map target).getD "?"

theorem mem_of_resolveTarget {f : τ → Option σ} {t : Option τ} {t' : Option σ}
    (h : resolveTarget f t = some t') {x : σ} (hx : x ∈ t') : ∃ u ∈ t, f u = some x := by
  cases t with
  | none => simp_all [resolveTarget]
  | some u =>
    obtain ⟨y, hy, rfl⟩ := Option.map_eq_some_iff.mp h
    cases hx
    exact ⟨u, rfl, hy⟩

theorem mem_of_resolveCases {f : τ → Option σ} {cases : List (Int × Option τ)}
    {cases' : List (Int × Option σ)}
    (h : (cases.mapM fun c => (resolveTarget f c.2).map fun t => (c.1, t)) = some cases')
    {x : σ} (hx : x ∈ cases'.filterMap (·.2)) : ∃ u ∈ cases.filterMap (·.2), f u = some x := by
  induction cases generalizing cases' with
  | nil => simp_all
  | cons c rest ih =>
    simp only [List.mapM_cons, Option.bind_eq_bind, Option.bind_eq_some_iff, Option.pure_def,
      Option.some.injEq] at h
    obtain ⟨c', hc, rest', hr, rfl⟩ := h
    obtain ⟨t, ht, rfl⟩ := Option.map_eq_some_iff.mp hc
    obtain ⟨d, hd, hx⟩ := List.mem_filterMap.mp hx
    rcases List.mem_cons.mp hd with rfl | hd
    · obtain ⟨u, hu, hf⟩ := mem_of_resolveTarget ht hx
      exact ⟨u, List.mem_filterMap.mpr ⟨c, List.mem_cons_self, hu⟩, hf⟩
    · obtain ⟨u, hu, hf⟩ := ih hr (List.mem_filterMap.mpr ⟨d, hd, hx⟩)
      obtain ⟨e, he, hu⟩ := List.mem_filterMap.mp hu
      exact ⟨u, List.mem_filterMap.mpr ⟨e, List.mem_cons_of_mem _ he, hu⟩, hf⟩

/-- Every target of a resolved action is the image of a target. -/
theorem mem_targets_of_resolve {f : τ → Option σ} {a : Action τ} {b : Action σ}
    (h : a.resolve f = some b) {t : σ}
    (ht : t ∈ b.targets) : ∃ u ∈ a.targets, f u = some t := by
  cases a with
  | branch c u | goto u =>
    obtain ⟨t', ht', rfl⟩ := Option.map_eq_some_iff.mp h
    simpa [targets] using mem_of_resolveTarget ht' (by simpa [targets] using ht)
  | switch x cases default =>
    simp only [resolve, Option.bind_eq_bind, Option.bind_eq_some_iff, Option.pure_def,
      Option.some.injEq] at h
    obtain ⟨cases', hc, default', hd, rfl⟩ := h
    rcases List.mem_append.mp ht with ht | ht
    · obtain ⟨u, hu, hf⟩ := mem_of_resolveCases hc ht
      exact ⟨u, List.mem_append_left _ hu, hf⟩
    · obtain ⟨u, hu, hf⟩ := mem_of_resolveTarget hd (by simpa using ht)
      exact ⟨u, List.mem_append_right _ (by simpa using hu), hf⟩
  | _ =>
    cases h
    simp [targets] at ht

end Action

namespace Stmt

variable {τ : Type}

def text (target : τ → String) (s : Stmt τ) : String := s.action.text target

def describe (target : τ → String) (index : Int) (s : Stmt τ) : String :=
  toString index ++ "@L" ++ toString s.line ++ ": " ++ s.text target

end Stmt

end FlowLint
