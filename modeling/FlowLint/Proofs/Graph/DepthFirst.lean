import FlowLint.Proofs.Graph.Walks
import Mathlib.Logic.Relation

/-! # Depth-first walks

A walk from a node finishes exactly the nodes that it comes to, the node itself last, and leaves the
others in their order. A node that is finished before one that it leads to is reached from it: the
other one is on the stack then, below the node.
-/
namespace FlowLint

namespace Walk
variable {α : Type} {next : α → List α}

/-- Steps lead from a node to another one. -/
def Reaches (next : α → List α) : α → α → Prop := Relation.ReflTransGen fun a b => b ∈ next a

/-- What holds of the state of a depth-first walk at any time. -/
structure Descends (next : α → List α) (unvisited : List α) (stack : List (α × List α)) : Prop where
  nodup : unvisited.Nodup
  /-- A frame has nodes left to do that its node leads to. -/
  items : ∀ f ∈ stack, ∀ b ∈ f.2, b ∈ next f.1
  /-- What the node of a frame leads to is left to do or has been visited. -/
  visited : ∀ f ∈ stack, ∀ b ∈ next f.1, b ∈ f.2 ∨ b ∉ unvisited
  /-- A node of the stack is reached from those below it. -/
  chain : stack.Pairwise fun f g => Reaches next g.1 f.1

namespace Descends
variable {unvisited bs : List α} {stack : List (α × List α)} {a b : α}

theorem initial [DecidableEq α] {all : List α} (hall : all.Nodup) (start : α) :
    Descends next (all.erase start) [(start, next start)] where
  nodup := hall.erase start
  items := by
    intro f hf b hb
    rw [List.mem_singleton.mp hf] at hb ⊢
    exact hb
  visited := by
    intro f hf b hb
    rw [List.mem_singleton.mp hf] at hb ⊢
    exact .inl hb
  chain := List.pairwise_singleton _ _

theorem pop (h : Descends next unvisited ((a, bs) :: stack)) : Descends next unvisited stack where
  nodup := h.nodup
  items f hf := h.items f (List.mem_cons_of_mem _ hf)
  visited f hf := h.visited f (List.mem_cons_of_mem _ hf)
  chain := (List.pairwise_cons.mp h.chain).2

theorem skip (h : Descends next unvisited ((a, b :: bs) :: stack)) (hb : b ∉ unvisited) :
    Descends next unvisited ((a, bs) :: stack) where
  nodup := h.nodup
  items := by
    obtain ⟨ha, hrest⟩ := List.forall_mem_cons.mp h.items
    exact List.forall_mem_cons.mpr ⟨fun c hc => ha c (List.mem_cons_of_mem _ hc), hrest⟩
  visited := by
    obtain ⟨ha, hrest⟩ := List.forall_mem_cons.mp h.visited
    refine List.forall_mem_cons.mpr ⟨fun c hc => ?_, hrest⟩
    rcases ha c hc with hmem | hnot
    · rcases List.mem_cons.mp hmem with rfl | hmem
      · exact .inr hb
      · exact .inl hmem
    · exact .inr hnot
  chain := by
    obtain ⟨ha, hrest⟩ := List.pairwise_cons.mp h.chain
    exact List.pairwise_cons.mpr ⟨ha, hrest⟩

theorem push [DecidableEq α] (h : Descends next unvisited ((a, b :: bs) :: stack)) :
    Descends next (unvisited.erase b) ((b, next b) :: (a, bs) :: stack) := by
  -- with the item taken off its frame, the walk could skip it: it counts as visited from here on
  have herase : Descends next (unvisited.erase b) ((a, b :: bs) :: stack) :=
    { nodup := h.nodup.erase b
      items := h.items
      visited := fun f hf c hc => (h.visited f hf c hc).imp_right fun hnot hmem =>
        hnot (List.mem_of_mem_erase hmem)
      chain := h.chain }
  have hskip := herase.skip (h.nodup.not_mem_erase)
  have hstep : b ∈ next a := h.items _ List.mem_cons_self b List.mem_cons_self
  exact
    { nodup := hskip.nodup
      items := List.forall_mem_cons.mpr ⟨fun c hc => hc, hskip.items⟩
      visited := List.forall_mem_cons.mpr ⟨fun c hc => .inl hc, hskip.visited⟩
      chain := by
        refine List.pairwise_cons.mpr ⟨fun f hf => ?_, hskip.chain⟩
        rcases List.mem_cons.mp hf with rfl | hf
        · exact .single hstep
        · exact ((List.pairwise_cons.mp h.chain).1 f hf).tail hstep }

end Descends

theorem eq_filter_of_sublist {l all : List α} {p : α → Bool} (hsub : l.Sublist all)
    (hall : all.Nodup) (h : ∀ x ∈ all, x ∈ l ↔ p x = true) : l = all.filter p := by
  have hself : l.filter p = l := List.filter_eq_self.mpr fun x hx => (h x (hsub.subset hx)).mp hx
  have hperm : l.Perm (all.filter p) := by
    refine (List.perm_ext_iff_of_nodup (hall.sublist hsub) (hall.filter p)).mpr fun x => ?_
    rw [List.mem_filter]
    constructor
    · intro hx
      exact ⟨hsub.subset hx, (h x (hsub.subset hx)).mp hx⟩
    · rintro ⟨hx, hp⟩
      exact (h x hx).mpr hp
  have hfilter := hsub.filter p
  rw [hself] at hfilter
  exact hfilter.eq_of_length hperm.length_eq

variable [DecidableEq α] {unvisited : List α} {stack : List (α × List α)} {root : α}

/-- The walk leaves nodes in the order in which they were given. -/
theorem finish_left_sublist (next : α → List α) (unvisited : List α) (stack : List (α × List α)) :
    (finish next unvisited stack).2.Sublist unvisited := by
  fun_induction finish next unvisited stack with
  | case1 unvisited => exact .refl _
  | case2 unvisited a stack done left heq ih =>
    rw [heq] at ih
    exact ih
  | case3 unvisited a b bs stack hb ih => exact ih.trans List.erase_sublist
  | case4 unvisited a b bs stack hb ih => exact ih

/-- The node at the bottom of the stack is finished last. -/
theorem getLast?_finish (next : α → List α) (unvisited : List α) (stack : List (α × List α)) :
    (finish next unvisited stack).1.getLast? = stack.getLast?.map (·.1) := by
  fun_induction finish next unvisited stack with
  | case1 unvisited => rfl
  | case2 unvisited a stack done left heq ih =>
    rw [heq] at ih
    rw [List.getLast?_cons, List.getLast?_cons, ih]
    cases stack.getLast? <;> rfl
  | case3 unvisited a b bs stack hb ih =>
    rw [ih, List.getLast?_cons_cons, List.getLast?_cons, List.getLast?_cons]
    cases stack.getLast? <;> rfl
  | case4 unvisited a b bs stack hb ih =>
    rw [ih, List.getLast?_cons, List.getLast?_cons]
    cases stack.getLast? <;> rfl

/-- Nodes that are finished are reached from a node that reaches the whole stack. -/
theorem reaches_of_mem_finish (h : Descends next unvisited stack)
    (hroot : ∀ f ∈ stack, Reaches next root f.1) :
    ∀ x ∈ (finish next unvisited stack).1, Reaches next root x := by
  fun_induction finish next unvisited stack with
  | case1 unvisited => exact fun x hx => absurd hx List.not_mem_nil
  | case2 unvisited a stack done left heq ih =>
    obtain ⟨ha, hroot⟩ := List.forall_mem_cons.mp hroot
    rw [heq] at ih
    exact List.forall_mem_cons.mpr ⟨ha, ih h.pop hroot⟩
  | case3 unvisited a b bs stack hb ih =>
    obtain ⟨ha, hroot⟩ := List.forall_mem_cons.mp hroot
    have hstep : b ∈ next a := h.items _ List.mem_cons_self b List.mem_cons_self
    refine ih h.push (List.forall_mem_cons.mpr ⟨ha.tail hstep, ?_⟩)
    exact List.forall_mem_cons.mpr ⟨ha, hroot⟩
  | case4 unvisited a b bs stack hb ih =>
    exact ih (h.skip hb) (List.forall_mem_cons.mpr (List.forall_mem_cons.mp hroot))

/-- What a finished node leads to is not left over. -/
theorem not_mem_left_of_finish (h : Descends next unvisited stack) :
    ∀ x ∈ (finish next unvisited stack).1, ∀ b ∈ next x, b ∉ (finish next unvisited stack).2 := by
  fun_induction finish next unvisited stack with
  | case1 unvisited => exact fun x hx => absurd hx List.not_mem_nil
  | case2 unvisited a stack done left heq ih =>
    have hsub := finish_left_sublist next unvisited stack
    rw [heq] at ih hsub
    refine List.forall_mem_cons.mpr ⟨fun b hb hleft => ?_, ih h.pop⟩
    have hvisited := (h.visited _ List.mem_cons_self b hb).resolve_left List.not_mem_nil
    exact hvisited (hsub.subset hleft)
  | case3 unvisited a b bs stack hb ih => exact ih h.push
  | case4 unvisited a b bs stack hb ih => exact ih (h.skip hb)

/-- A node that is finished before one that it leads to is reached from it. -/
theorem pairwise_finish (h : Descends next unvisited stack) :
    (finish next unvisited stack).1.Pairwise fun a b => b ∈ next a → Reaches next b a := by
  fun_induction finish next unvisited stack with
  | case1 unvisited => exact .nil
  | case2 unvisited a stack done left heq ih =>
    have hperm := perm_finish next unvisited stack
    rw [heq] at ih hperm
    refine List.pairwise_cons.mpr ⟨fun b hdone hb => ?_, ih h.pop⟩
    have hvisited := (h.visited _ List.mem_cons_self b hb).resolve_left List.not_mem_nil
    have hmem := hperm.mem_iff.mp (List.mem_append_left _ hdone)
    obtain ⟨f, hf, rfl⟩ := List.mem_map.mp ((List.mem_append.mp hmem).resolve_left hvisited)
    exact (List.pairwise_cons.mp h.chain).1 f hf
  | case3 unvisited a b bs stack hb ih => exact ih h.push
  | case4 unvisited a b bs stack hb ih => exact ih (h.skip hb)

theorem pairwise_depthFirst (next : α → List α) {all : List α} (hall : all.Nodup) (start : α) :
    (depthFirst next all start).1.Pairwise fun a b => b ∈ next a → Reaches next b a :=
  pairwise_finish (.initial hall start)

section
variable {all : List α} {start : α} (hall : all.Nodup) (hs : start ∈ all)
include hall hs

theorem nodup_depthFirst (next : α → List α) :
    ((depthFirst next all start).1 ++ (depthFirst next all start).2).Nodup :=
  (perm_depthFirst next hs).nodup_iff.mpr hall

theorem depthFirst_left (next : α → List α) :
    (depthFirst next all start).2 = all.filter fun x => x ∉ (depthFirst next all start).1 := by
  have hsub := finish_left_sublist next (all.erase start) [(start, next start)]
  refine eq_filter_of_sublist (hsub.trans List.erase_sublist) hall fun x hx => ?_
  have hdisjoint := (List.nodup_append.mp (nodup_depthFirst hall hs next)).2.2
  have hmem := List.mem_append.mp ((mem_depthFirst next hs x).mpr hx)
  rw [decide_eq_true_iff]
  constructor
  · intro hleft hdone
    exact hdisjoint x hdone x hleft rfl
  · intro hdone
    exact hmem.resolve_left hdone

theorem mem_depthFirst_done (hnext : ∀ a, ∀ b ∈ next a, b ∈ all) {x : α} :
    x ∈ (depthFirst next all start).1 ↔ Reaches next start x := by
  have hstart : Descends next (all.erase start) [(start, next start)] := .initial hall start
  constructor
  · refine reaches_of_mem_finish hstart (fun f hf => ?_) x
    rw [List.mem_singleton.mp hf]
    exact .refl
  · intro h
    induction h with
    | refl =>
      have hlast := getLast?_finish next (all.erase start) [(start, next start)]
      exact List.mem_of_getLast? hlast
    | tail _ hb ih =>
      have hleft := not_mem_left_of_finish hstart _ ih _ hb
      have hmem := (mem_depthFirst next hs _).mpr (hnext _ _ hb)
      exact (List.mem_append.mp hmem).resolve_right hleft

end

end Walk

end FlowLint
