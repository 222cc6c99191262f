import FlowLint.Proofs.Graph.Flow

/-! # Runs with effects

A machine says what literals and operators mean and answers effects: what the answer is depends on
the effects so far and on nothing else. Stores are total. What an expression or an action does
depends on the variables that it reads, so it is the same in stores that agree on those.
-/
namespace FlowLint

/-- What a run asks of its surroundings, with the values of the operands. -/
inductive Effect (V : Type) where
  | new (ty : Ty) (lengths : List V)
  | cast (value : V) (ty : Ty)
  | field (name : String) (base : Option V) (owner : String)
  | elem (base index : V)
  | call (method : String) (args : List V) (receiver : Option V)
  | putField (name : String) (base : Option V) (owner : String) (value : V)
  | putElem (base index value : V)

/-- The meaning of everything that a body may do, over values of any kind. -/
structure Machine (V : Type) where
  lit : Int → V
  apply : BinOp → V → V → V
  /-- What an application that no family of operators interprets comes to. -/
  custom : BinOp → V → V → V
  isZero : V → Bool
  isTrue : V → Bool
  /-- Whether a value takes the case of a constant. -/
  takes : V → Int → Bool
  /-- The answer to the last of the effects so far, none where it stops the run. -/
  oracle : List (Effect V) → Option V

/-- A computation that leaves the effects so far, and a result unless the run stops. -/
abbrev Exec (V : Type) := OptionT (StateM (List (Effect V)))

inductive Position (V : Type) where
  | running (pc : Nat)
  | trapped
  | returned (value : Option V)

structure Snapshot (V : Type) where
  position : Position V
  store : Var → V
  effects : List (Effect V)

def assign {V : Type} (σ : Var → V) : Option (Var × V) → Var → V
  | none => σ
  | some (x, v) => fun y => if y = x then v else σ y

theorem map_congr_toList {V : Type} {σ τ : Var → V} {x? : Option Var}
    (h : ∀ x ∈ x?.toList, σ x = τ x) : x?.map σ = x?.map τ := by
  cases x? with
  | none => rfl
  | some x => exact congrArg some (h x List.mem_cons_self)

namespace Machine
variable {V : Type} (M : Machine V)

def emit (e : Effect V) : Exec V V := fun effects => (M.oracle (effects ++ [e]), effects ++ [e])

mutual

def eval (σ : Var → V) : Expr → Exec V V
  | .lit n => pure (M.lit n)
  | .var x => pure (σ x)
  | .bin op l r => do
    let a ← eval σ l
    let b ← eval σ r
    if op.traps && M.isZero b then failure else pure (M.apply op a b)
  | .uninterpreted op l r => do
    let a ← eval σ l
    let b ← eval σ r
    pure (M.custom op a b)
  | .new ty lengths => do M.emit (.new ty (← evalList σ lengths))
  | .cast value ty => do M.emit (.cast (← eval σ value) ty)
  | .field name base owner => M.emit (.field name (base.map σ) owner)
  | .elem base index => do M.emit (.elem (σ base) (← eval σ index))
  | .call method args receiver => do M.emit (.call method (← evalList σ args) (receiver.map σ))

def evalList (σ : Var → V) : List Expr → Exec V (List V)
  | [] => pure []
  | e :: rest => do
    let v ← eval σ e
    let vs ← evalList σ rest
    pure (v :: vs)

end

/-- Puts a value in its place, and says which variable is assigned. -/
def put (σ : Var → V) (place : LValue) (v : V) : Exec V (Option (Var × V)) :=
  match place with
  | .var x => pure (some (x, v))
  | .field name base owner => do
    let _ ← M.emit (.putField name (base.map σ) owner v)
    pure none
  | .elem base index => do
    let i ← M.eval σ index
    let _ ← M.emit (.putElem (σ base) i v)
    pure none

def jump : Option Nat → Exec V (Option (Var × V) × Position V)
  | some t => pure (none, .running t)
  | none => failure

/-- What an action assigns and where it leads, with the next position given. -/
def perform (σ : Var → V) (next : Nat) : Action Nat → Exec V (Option (Var × V) × Position V)
  | .nop _ => pure (none, .running next)
  | .assign place e => do
    let v ← M.eval σ e
    let b ← M.put σ place v
    pure (b, .running next)
  | .invoke none e => do
    let _ ← M.eval σ e
    pure (none, .running next)
  | .invoke (some place) e => do
    let v ← M.eval σ e
    let b ← M.put σ place v
    pure (b, .running next)
  | .branch c target => do
    let v ← M.eval σ c
    if M.isTrue v then jump target else pure (none, .running next)
  | .goto target => jump target
  | .switch x cases default =>
    match cases.find? fun c => M.takes (σ x) c.1 with
    | some c => jump c.2
    | none => jump default
  | .ret none => pure (none, .returned none)
  | .ret (some e) => do
    let v ← M.eval σ e
    pure (none, .returned (some v))

/-- A step of a run. A run that has trapped, returned or left the body goes nowhere. -/
def step (m : Method) (c : Snapshot V) : Snapshot V :=
  match c.position with
  | .running pc =>
    match m.body[pc]? with
    | none => c
    | some s =>
      match M.perform c.store (pc + 1) s.action c.effects with
      | (none, effects) => ⟨.trapped, c.store, effects⟩
      | (some (b, position), effects) => ⟨position, assign c.store b, effects⟩
  | _ => c

def run (m : Method) (σ : Var → V) : Nat → Snapshot V
  | 0 => ⟨.running 0, σ, []⟩
  | n + 1 => M.step m (run m σ n)

theorem exists_of_exec_bind {α β : Type} {x : Exec V α} {f : α → Exec V β} {b : β}
    {es es' : List (Effect V)} (h : (x >>= f) es = (some b, es')) :
    ∃ a es₁, x es = (some a, es₁) ∧ f a es₁ = (some b, es') := by
  simp only [bind, OptionT.bind, OptionT.mk, StateT.bind] at h
  cases hx : x es with
  | mk o es₁ =>
    rw [hx] at h
    cases o with
    | none => cases h
    | some a => exact ⟨a, es₁, rfl, h⟩

section
variable {M : Machine V} {σ τ : Var → V}

mutual

/-- Stores that agree on what an expression reads give it the same value and effects. -/
theorem eval_congr : ∀ e : Expr, (∀ x ∈ e.uses, σ x = τ x) → M.eval σ e = M.eval τ e
  | .lit _, _ => rfl
  | .var x, h => congrArg pure (h x List.mem_cons_self)
  | .bin op l r, h => by
    have hl := eval_congr l fun x hx => h x (List.mem_append_left _ hx)
    have hr := eval_congr r fun x hx => h x (List.mem_append_right _ hx)
    rw [eval, eval, hl, hr]
  | .uninterpreted op l r, h => by
    have hl := eval_congr l fun x hx => h x (List.mem_append_left _ hx)
    have hr := eval_congr r fun x hx => h x (List.mem_append_right _ hx)
    rw [eval, eval, hl, hr]
  | .new ty lengths, h => by
    have hlengths := evalList_congr lengths h
    rw [eval, eval, hlengths]
  | .cast v ty, h => by
    have hv := eval_congr v h
    rw [eval, eval, hv]
  | .field name base owner, h => by
    have hbase := map_congr_toList h
    rw [eval, eval, hbase]
  | .elem base index, h => by
    have hbase := h base List.mem_cons_self
    have hindex := eval_congr index fun x hx => h x (List.mem_cons_of_mem _ hx)
    rw [eval, eval, hbase, hindex]
  | .call method args receiver, h => by
    have hargs := evalList_congr args fun x hx => h x (List.mem_append_right _ hx)
    have hreceiver := map_congr_toList fun x hx => h x (List.mem_append_left _ hx)
    rw [eval, eval, hargs, hreceiver]

theorem evalList_congr : ∀ es : List Expr, (∀ x ∈ Expr.usesList es, σ x = τ x) →
    M.evalList σ es = M.evalList τ es
  | [], _ => rfl
  | e :: rest, h => by
    have he := eval_congr e fun x hx => h x (List.mem_append_left _ hx)
    have hrest := evalList_congr rest fun x hx => h x (List.mem_append_right _ hx)
    rw [evalList, evalList, he, hrest]

end

theorem put_congr (place : LValue) (h : ∀ x ∈ place.uses, σ x = τ x) (v : V) :
    M.put σ place v = M.put τ place v := by
  cases place with
  | var x => rfl
  | field name base owner =>
    have hbase := map_congr_toList h
    rw [put, put, hbase]
  | elem base index =>
    have hbase := h base List.mem_cons_self
    have hindex := eval_congr (M := M) index fun x hx => h x (List.mem_cons_of_mem _ hx)
    rw [put, put, hbase, hindex]

/-- What an action does depends on the variables that it reads. -/
theorem perform_congr {a : Action Nat} (h : ∀ x ∈ a.uses, σ x = τ x) (next : Nat) :
    M.perform σ next a = M.perform τ next a := by
  cases a with
  | nop | goto => rfl
  | assign place e =>
    have he := eval_congr (M := M) e fun x hx => h x (List.mem_append_left _ hx)
    have hput := put_congr (M := M) place fun x hx => h x (List.mem_append_right _ hx)
    simp only [perform, he, hput]
  | invoke place e =>
    have he := eval_congr (M := M) e fun x hx => h x (List.mem_append_left _ hx)
    cases place with
    | none => simp only [perform, he]
    | some place =>
      have hput := put_congr (M := M) place fun x hx => h x (List.mem_append_right _ hx)
      simp only [perform, he, hput]
  | branch c t =>
    have hc := eval_congr (M := M) c h
    simp only [perform, hc]
  | switch x cases default =>
    have hx := h x List.mem_cons_self
    simp only [perform, hx]
  | ret v =>
    cases v with
    | none => rfl
    | some e =>
      have he := eval_congr (M := M) e h
      simp only [perform, he]

theorem put_spec {place : LValue} {v : V} {b : Option (Var × V)} {es es' : List (Effect V)}
    (h : M.put σ place v es = (some b, es')) : b.map (·.1) = place.var? := by
  cases place with
  | var x =>
    cases h
    rfl
  | field name base owner =>
    obtain ⟨_, _, -, h⟩ := exists_of_exec_bind h
    cases h
    rfl
  | elem base index =>
    obtain ⟨_, _, -, h⟩ := exists_of_exec_bind h
    obtain ⟨_, _, -, h⟩ := exists_of_exec_bind h
    cases h
    rfl

theorem jump_spec {t : Option Nat} {b : Option (Var × V)} {j : Nat} {es es' : List (Effect V)}
    (h : jump t es = (some (b, .running j), es')) : b = none ∧ t = some j := by
  cases t with
  | none => cases h
  | some t =>
    cases h
    exact ⟨rfl, rfl⟩

/-- An action that goes on assigns what it defines and follows an edge of the control flow. -/
theorem perform_spec {m : Method} {i j : Nat} {a : Action Nat} {b : Option (Var × V)}
    {es es' : List (Effect V)} (ha : ∀ t ∈ a.targets, t < m.size)
    (h : M.perform σ (i + 1) a es = (some (b, .running j), es')) :
    b.map (·.1) = a.defines? ∧ ∃ e, m.Flow i a e ∧ e.target = m.nodeAt j := by
  have htarget : j ∈ a.targets → m.nodeAt j = .stmt j := fun hj => Method.nodeAt_of_lt (ha j hj)
  cases a with
  | nop label =>
    cases h
    exact ⟨rfl, _, .nop label, rfl⟩
  | assign place e =>
    obtain ⟨v, _, -, h⟩ := exists_of_exec_bind h
    obtain ⟨b', _, hput, h⟩ := exists_of_exec_bind h
    cases h
    exact ⟨put_spec hput, _, .assign place e, rfl⟩
  | invoke place e =>
    cases place with
    | none =>
      obtain ⟨v, _, -, h⟩ := exists_of_exec_bind h
      cases h
      exact ⟨rfl, _, .invoke none e, rfl⟩
    | some place =>
      obtain ⟨v, _, -, h⟩ := exists_of_exec_bind h
      obtain ⟨b', _, hput, h⟩ := exists_of_exec_bind h
      cases h
      exact ⟨put_spec hput, _, .invoke (some place) e, rfl⟩
  | branch c t =>
    obtain ⟨v, _, -, h⟩ := exists_of_exec_bind h
    split at h
    · obtain ⟨rfl, rfl⟩ := jump_spec h
      have hj := htarget (by simp [Action.targets])
      exact ⟨rfl, _, .taken c j, hj.symm⟩
    · cases h
      exact ⟨rfl, _, .notTaken c t, rfl⟩
  | goto t =>
    obtain ⟨rfl, rfl⟩ := jump_spec h
    have hj := htarget (by simp [Action.targets])
    exact ⟨rfl, _, .jump j, hj.symm⟩
  | switch x cases d =>
    cases hfind : cases.find? fun c => M.takes (σ x) c.1 with
    | some c =>
      obtain ⟨n, t⟩ := c
      simp only [perform, hfind] at h
      obtain ⟨rfl, rfl⟩ := jump_spec h
      have hc := List.mem_of_find?_eq_some hfind
      have hj := htarget (Action.mem_targets_of_case hc)
      exact ⟨rfl, _, .case x d hc, hj.symm⟩
    | none =>
      simp only [perform, hfind] at h
      obtain ⟨rfl, rfl⟩ := jump_spec h
      have hj := htarget (by simp [Action.targets])
      exact ⟨rfl, _, .default x cases j, hj.symm⟩
  | ret v =>
    cases v with
    | none => cases h
    | some e =>
      obtain ⟨v, _, -, h⟩ := exists_of_exec_bind h
      cases h

end

end Machine

def words : Machine Int where
  lit := Word32.wrap
  apply := BinOp.onWords
  custom _ a _ := a
  isZero := (· == 0)
  isTrue := (· == 1)
  takes v n := v == Word32.wrap n
  oracle effects := some effects.length

end FlowLint
