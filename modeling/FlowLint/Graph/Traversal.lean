import FlowLint.Graph.Basic

/-! # Walks over a graph

Both walks carry the nodes that have not been visited. A step of the first one takes a pending
node and makes only new ones pending; a step of the depth-first one takes off a frame or an item of
a frame, new frames being counted beforehand.
-/
namespace FlowLint

namespace Walk

variable {α : Type} [DecidableEq α]

def among (bs unfound : List α) : List α := unfound.filter (· ∈ bs)

def others (bs unfound : List α) : List α := unfound.filter (· ∉ bs)

theorem length_among_add_others (bs unfound : List α) :
    (among bs unfound).length + (others bs unfound).length = unfound.length := by
  induction unfound with
  | nil => rfl
  | cons a rest ih =>
    simp only [among, others, decide_not] at ih ⊢
    by_cases h : a ∈ bs <;> simp [h] <;> omega

/-- Closes `found` under `next`, which may fail. Pending nodes are visited in order; what they lead
to is taken from the nodes that have not been found. -/
def closure {ε : Type} (next : α → Except ε (List α)) (unfound pending found : List α) :
    Except ε (List α) :=
  match pending with
  | [] => .ok found
  | a :: pending =>
    match next a with
    | .error e => .error e
    | .ok bs =>
      closure next (others bs unfound) (pending ++ among bs unfound) (found ++ among bs unfound)
termination_by unfound.length + pending.length
decreasing_by
  have := length_among_add_others bs unfound
  simp only [List.length_append, List.length_cons]
  omega

/-- What the frames of a stack have left to do, the frames themselves included. -/
def remaining : List (α × List α) → Nat
  | [] => 0
  | (_, bs) :: stack => bs.length + 1 + remaining stack

/-- What is left to do when each of the nodes is given a frame. -/
def workOf (next : α → List α) (nodes : List α) : Nat :=
  remaining (nodes.map fun a => (a, next a))

theorem workOf_erase (next : α → List α) {nodes : List α} {a : α} (h : a ∈ nodes) :
    (next a).length + 1 + workOf next (nodes.erase a) = workOf next nodes := by
  induction nodes with
  | nil => cases h
  | cons b rest ih =>
    by_cases hb : b = a
    · subst hb
      simp [workOf, remaining]
    · have hr := ih ((List.mem_cons.mp h).resolve_left fun he => hb he.symm)
      have he : (b :: rest).erase a = b :: rest.erase a := by simp [hb]
      simp only [workOf, he, List.map_cons, remaining] at hr ⊢
      omega

/-- Finishes a depth-first walk. A frame of the stack is a node and the nodes it still leads to.
The result holds the nodes in the order in which they are finished, and the nodes that are never
visited. -/
def finish (next : α → List α) (unvisited : List α) (stack : List (α × List α)) :
    List α × List α :=
  match stack with
  | [] => ([], unvisited)
  | (a, []) :: stack =>
    let (done, left) := finish next unvisited stack
    (a :: done, left)
  | (a, b :: bs) :: stack =>
    if b ∈ unvisited then finish next (unvisited.erase b) ((b, next b) :: (a, bs) :: stack)
    else finish next unvisited ((a, bs) :: stack)
termination_by workOf next unvisited + remaining stack
decreasing_by
  · simp only [remaining]
    omega
  · next h =>
    have := workOf_erase next h
    simp only [remaining, List.length_cons]
    omega
  · simp only [remaining, List.length_cons]
    omega

/-- A depth-first walk from a node: the nodes in the order in which they are finished, and those
that are not reached. -/
def depthFirst (next : α → List α) (all : List α) (start : α) : List α × List α :=
  finish next (all.erase start) [(start, next start)]

end Walk

namespace Graph

variable (g : Graph)

def reachableFrom (start : Node) : List Node :=
  match Walk.closure (ε := Empty) (fun n => .ok (g.successors n)) (g.nodes.erase start) [start]
    [start] with
  | .ok found => found

/-- The nodes in the order in which a depth-first walk finishes them, then those that it does not
reach in their own order. -/
def postorder (start : Node) : List Node :=
  let (done, left) := Walk.depthFirst g.successors g.nodes start
  done ++ left

def reversePostorder (start : Node) : List Node := (g.postorder start).reverse

/-- The reverse order of a walk against the edges from the exit, then the nodes that do not reach
the exit in their own order. -/
def backwardOrder : List Node :=
  let (done, left) := Walk.depthFirst g.predecessors g.nodes .exit
  done.reverse ++ left

def sorted (found : List Node) : List Node := g.nodes.filter found.contains

end Graph

end FlowLint
