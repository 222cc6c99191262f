import FlowLint.Pipeline.Store
import FlowLint.Proofs.Except

/-! # Results that are alike

Two results are alike when no reader tells them apart: constants are read for the values of
variables before nodes, and liveness for the variables after nodes. Stores that are alike keep the
same names, with results that are alike.
-/
namespace FlowLint

/-- Results that no reader tells apart. -/
inductive Artifact.Alike : Artifact → Artifact → Prop
  | refl (a : Artifact) : Alike a a
  | constants {r r' : Solution Constants} (h : ∀ n x, (r.before n).get x = (r'.before n).get x) :
    Alike (.constants r) (.constants r')
  | live {r r' : Solution LiveSet} (h : ∀ n x, (r.after n).contains x = (r'.after n).contains x) :
    Alike (.live r) (.live r')

/-- Stores that keep the same names, with results that are alike. -/
def Store.Alike (s s' : Store) : Prop :=
  ∀ key, Option.Rel Artifact.Alike (s.find? key) (s'.find? key)

namespace Store
variable {s s' : Store} {a a' : Artifact} {key k : String} {g : Graph}

theorem find?_insert (s : Store) (key : String) (a : Artifact) (k : String) :
    (s.insert key a).find? k = if k = key then some a else s.find? k := by
  by_cases h : k = key
  · simp [insert, find?, h]
  · have hfilter : s.entries.filter (·.1 ≠ key) = s.entries.filter fun b => !(b.1 == key) := by
      congr 1
      funext b
      by_cases hb : b.1 = key <;> simp [hb]
    rw [if_neg h, insert, find?, List.lookup_cons, beq_eq_false_iff_ne.mpr h, hfilter]
    exact (FactMap.lookup_filter_ne key k s.entries).trans (by simp [h, find?])

theorem Alike.refl (s : Store) : s.Alike s := by
  intro key
  cases s.find? key with
  | none => exact .none
  | some a => exact .some (.refl a)

theorem Alike.insert (hs : s.Alike s') (key : String) (ha : a.Alike a') :
    (s.insert key a).Alike (s'.insert key a') := by
  intro k
  rw [find?_insert, find?_insert]
  split
  · exact .some ha
  · exact hs k

theorem Alike.get (hs : s.Alike s') (m : Method) (key : String) :
    Agree Artifact.Alike (s.get m key) (s'.get m key) := by
  rw [Store.get, Store.get]
  have h := hs key
  generalize s.find? key = x at h ⊢
  generalize s'.find? key = y at h ⊢
  cases h with
  | none => exact .error _
  | some h => exact .ok h

theorem Alike.graph (hs : s.Alike s') (h : s.find? key = some (.graph g)) :
    s'.find? key = some (.graph g) := by
  have hrel := hs key
  rw [h] at hrel
  cases hf : s'.find? key with
  | none =>
    rw [hf] at hrel
    cases hrel
  | some a =>
    rw [hf] at hrel
    obtain ⟨hrel⟩ := hrel
    cases hrel
    rfl

end Store

end FlowLint
