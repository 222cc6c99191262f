import FlowLint.Stmt

/-! # Method bodies

A listing names its statements by labels and jumps to labels. It is accepted as a method when no
statement occurs twice and every jump stays in the body; then targets are positions.
-/
namespace FlowLint

/-- A body that has not been accepted yet. A label names one statement, so a label that occurs
twice is a statement that occurs twice. -/
structure Listing where
  name : String
  file : String
  params : List Var
  items : List (Nat × Stmt Nat)

structure Method where
  name : String
  file : String
  params : List Var
  body : List (Stmt Nat)
  targets_lt : ∀ s ∈ body, ∀ t ∈ s.action.targets, t < body.length

namespace Listing

variable (l : Listing)

def labels : List Nat := l.items.map (·.1)

def position? (label : Nat) : Option Nat := l.labels.idxOf? label

theorem lt_of_position? {l : Listing} {label i : Nat} (h : l.position? label = some i) :
    i < l.labels.length := by
  rw [position?, List.idxOf?, List.findIdx?_eq_some_iff_findIdx_eq] at h
  exact h.1

/-- A label shown by its position among the first `placed` statements, as a question mark when it
is not there. -/
def showTarget (placed label : Nat) : String :=
  match (l.labels.take placed).idxOf? label with
  | some i => toString i
  | none => "?"

/-- The first position whose label stands earlier too. -/
def repeated? : Option Nat :=
  (List.range l.items.length).find? fun i =>
    match l.labels[i]? with
    | some label => (l.labels.take i).contains label
    | none => false

/-- A statement with positions for labels, none when it jumps outside the body. -/
def resolve? (s : Stmt Nat) : Option (Stmt Nat) :=
  (s.action.resolve l.position?).map (⟨s.line, ·⟩)

/-- The statements with positions for labels. The first one that jumps outside the body is an
error. -/
def resolveBody : (index : Nat) → List (Nat × Stmt Nat) → Except Error (List (Stmt Nat))
  | _, [] => .ok []
  | index, (_, s) :: rest =>
    match l.resolve? s with
    | none => .error (.targetOutside (s.describe (l.showTarget l.items.length) index) l.name)
    | some s => (resolveBody (index + 1) rest).map (s :: ·)

theorem length_of_resolveBody {l : Listing} {index : Nat} {items : List (Nat × Stmt Nat)}
    {body : List (Stmt Nat)} (h : l.resolveBody index items = .ok body) :
    body.length = items.length := by
  induction items generalizing index body with
  | nil => cases h; rfl
  | cons s rest ih =>
    rw [resolveBody] at h
    split at h
    · cases h
    · cases hr : l.resolveBody (index + 1) rest with
      | error e => rw [hr] at h; cases h
      | ok tail =>
        rw [hr] at h
        cases h
        simp [ih hr]

theorem targets_lt_of_resolveBody {l : Listing} {index : Nat} {items : List (Nat × Stmt Nat)}
    {body : List (Stmt Nat)} (h : l.resolveBody index items = .ok body) :
    ∀ s ∈ body, ∀ t ∈ s.action.targets, t < l.items.length := by
  induction items generalizing index body with
  | nil => cases h; simp
  | cons s rest ih =>
    rw [resolveBody] at h
    split at h
    · cases h
    · next s' hs =>
      cases hr : l.resolveBody (index + 1) rest with
      | error e => rw [hr] at h; cases h
      | ok tail =>
        rw [hr] at h
        cases h
        intro x hx t ht
        rcases List.mem_cons.mp hx with rfl | hx
        · obtain ⟨a, ha, rfl⟩ := Option.map_eq_some_iff.mp hs
          obtain ⟨u, -, hu⟩ := Action.mem_targets_of_resolve ha ht
          simpa [labels] using lt_of_position? hu
        · exact ih hr x hx t ht

/-- Accepts a listing. A repeated statement is reported before a jump outside the body. -/
def toMethod : Except Error Method :=
  match l.repeated? with
  | some i =>
    let shown := (l.items[i]?.map fun s => s.2.text (l.showTarget i)).getD ""
    .error (.repeatedStatement shown l.name)
  | none =>
    match h : l.resolveBody 0 l.items with
    | .error e => .error e
    | .ok body => .ok {
        name := l.name, file := l.file, params := l.params, body
        targets_lt := length_of_resolveBody h ▸ targets_lt_of_resolveBody h }

end Listing

def Stmt.shown (s : Stmt Nat) : String := s.text toString

namespace Method

variable (m : Method)

def addVar (xs : List Var) (x : Var) : List Var := if xs.contains x then xs else xs ++ [x]

/-- The variables of the body, parameters first, each where it is first mentioned. -/
def vars : List Var :=
  m.body.foldl (fun xs s => (s.action.defines?.toList ++ s.action.uses).foldl addVar xs)
    (m.params.foldl addVar [])

def describe : String :=
  "IR(" ++ Text.quote m.name ++ ", params=" ++ toString m.params.length ++ ", stmts=" ++
    toString m.body.length ++ ")"

end Method

end FlowLint
