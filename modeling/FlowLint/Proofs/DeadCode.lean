import FlowLint.DeadCode
import FlowLint.Proofs.Fact.Set
import FlowLint.Proofs.Graph.Flow

/-! # Dead statements

Which statements are dead under given nodes and live variables, and how that changes with them:
there are more when fewer variables are live, and more when fewer nodes are reached as long as they
have a source line.
-/
namespace FlowLint

/-- A statement is useless if it defines a variable that is not live, by an expression without
effects. -/
theorem Stmt.isUseless_iff {s : Stmt Nat} {live : LiveSet} : s.isUseless live = true ↔
    ∃ x e, s.action.definition? = some (some (.var x), e) ∧ live.contains x = false ∧
      e.isEffectFree = true := by
  rw [isUseless]
  split
  · next x e hdef =>
    rw [Bool.and_eq_true, Bool.not_eq_true']
    constructor
    · exact fun h => ⟨x, e, hdef, h⟩
    · rintro ⟨x', e', hdef', h⟩
      cases hdef.symm.trans hdef'
      exact h
  · next hnot => exact ⟨nofun, fun ⟨x, e, hdef, _⟩ => absurd hdef (hnot x e)⟩

theorem Stmt.isUseless_of_subset {s : Stmt Nat} {live live' : LiveSet}
    (hle : live.subset live' = true) (h : s.isUseless live' = true) : s.isUseless live = true := by
  obtain ⟨x, e, hdef, hx, he⟩ := isUseless_iff.mp h
  refine isUseless_iff.mpr ⟨x, e, hdef, ?_, he⟩
  by_contra hlive
  rw [Bool.not_eq_false] at hlive
  rw [FactSet.subset_iff.mp hle x hlive] at hx
  cases hx

theorem Stmt.isUseless_congr {live live' : LiveSet} (h : ∀ x, live.contains x = live'.contains x)
    (s : Stmt Nat) : s.isUseless live = s.isUseless live' := by
  rw [Bool.eq_iff_iff, isUseless_iff, isUseless_iff]
  simp only [h]

namespace Method
variable {m : Method} {nodes nodes' : List Node} {q q' : Solution LiveSet} {i : Nat}

/-- Liveness is asked for at the nodes of reached statements only, and variable by variable. -/
theorem deadKinds_congr {f f' : Node → LiveSet} (h : ∀ i < m.size, .stmt i ∈ nodes →
      ∀ x, (f (.stmt i)).contains x = (f' (.stmt i)).contains x) :
    m.deadKinds nodes f = m.deadKinds nodes f' := by
  rw [deadKinds, deadKinds]
  apply List.filterMap_congr
  rintro ⟨s, i⟩ hp
  have hi : i < m.size := lt_size_of_body (List.mk_mem_zipIdx_iff_getElem?.mp hp)
  rw [deadKind?, deadKind?]
  by_cases hn : .stmt i ∈ nodes
  · rw [s.isUseless_congr (h i hi hn)]
  · simp only [hn, not_false_eq_true, if_true]

theorem mem_deadKinds {live : Node → LiveSet} {k : DeadKind} : (i, k) ∈ m.deadKinds nodes live ↔
    ∃ s, m.body[i]? = some s ∧ deadKind? nodes live i s = some k := by
  rw [deadKinds, List.mem_filterMap]
  constructor
  · rintro ⟨⟨s, j⟩, hp, hk⟩
    obtain ⟨k', hk', hpair⟩ := Option.map_eq_some_iff.mp hk
    cases hpair
    exact ⟨s, List.mk_mem_zipIdx_iff_getElem?.mp hp, hk'⟩
  · rintro ⟨s, hs, hk⟩
    refine ⟨(s, i), List.mk_mem_zipIdx_iff_getElem?.mpr hs, ?_⟩
    rw [hk]
    rfl

theorem deadKind?_eq_some_iff {live : Node → LiveSet} {s : Stmt Nat} {k : DeadKind} :
    deadKind? nodes live i s = some k ↔ match k with
      | .unreachable => .stmt i ∉ nodes ∧ 0 < s.line
      | .useless => .stmt i ∈ nodes ∧ s.isUseless (live (.stmt i)) = true := by
  rw [deadKind?]
  by_cases hn : .stmt i ∈ nodes
  · by_cases hs : s.isUseless (live (.stmt i)) = true <;> cases k <;> simp [hn, hs]
  · by_cases hl : 0 < s.line <;> cases k <;> simp [hn, hl]

theorem mem_deadCode : i ∈ m.deadCode nodes q ↔ ∃ s, m.body[i]? = some s ∧
    ((.stmt i ∈ nodes ∧ s.isUseless (q.after (.stmt i)) = true) ∨
      (.stmt i ∉ nodes ∧ 0 < s.line)) := by
  rw [deadCode, List.mem_map]
  constructor
  · rintro ⟨⟨i, k⟩, hmem, rfl⟩
    obtain ⟨s, hs, hk⟩ := mem_deadKinds.mp hmem
    have hwhy := deadKind?_eq_some_iff.mp hk
    cases k with
    | unreachable => exact ⟨s, hs, .inr hwhy⟩
    | useless => exact ⟨s, hs, .inl hwhy⟩
  · rintro ⟨s, hs, huseless | hunreached⟩
    · exact ⟨(i, .useless), mem_deadKinds.mpr ⟨s, hs, deadKind?_eq_some_iff.mpr huseless⟩, rfl⟩
    · exact ⟨(i, .unreachable), mem_deadKinds.mpr ⟨s, hs, deadKind?_eq_some_iff.mpr hunreached⟩,
        rfl⟩

/-- Dead statements are listed once each, by ascending position. -/
theorem deadKinds_pairwise (m : Method) (nodes : List Node) (live : Node → LiveSet) :
    ((m.deadKinds nodes live).map (·.1)).Pairwise (· < ·) := by
  rw [List.pairwise_map, deadKinds]
  refine (pairwise_zipIdx m.body 0).filterMap _ ?_
  rintro ⟨s, i⟩ ⟨s', i'⟩ hlt b hb b' hb'
  obtain ⟨k, -, rfl⟩ := Option.map_eq_some_iff.mp hb
  obtain ⟨k', -, rfl⟩ := Option.map_eq_some_iff.mp hb'
  exact hlt

theorem deadCode_pairwise (m : Method) (nodes : List Node) (q : Solution LiveSet) :
    (m.deadCode nodes q).Pairwise (· < ·) := m.deadKinds_pairwise nodes q.after

/-- Dead statements stay dead when fewer variables are live. -/
theorem mem_deadCode_of_live (hlive : ∀ n, (q.after n).subset (q'.after n) = true)
    (h : i ∈ m.deadCode nodes q') : i ∈ m.deadCode nodes q := by
  obtain ⟨s, hs, hdead⟩ := mem_deadCode.mp h
  refine mem_deadCode.mpr ⟨s, hs, hdead.imp_left fun huseless => ?_⟩
  exact ⟨huseless.1, Stmt.isUseless_of_subset (hlive _) huseless.2⟩

/-- Dead statements with a source line stay dead when fewer nodes are reached. -/
theorem mem_deadCode_of_nodes (hnodes : ∀ n ∈ nodes', n ∈ nodes) (h : i ∈ m.deadCode nodes q)
    (hline : 0 < (m.stmtAt (.stmt i)).line) : i ∈ m.deadCode nodes' q := by
  obtain ⟨s, hs, hdead⟩ := mem_deadCode.mp h
  rw [stmtAt_of_body hs] at hline
  refine mem_deadCode.mpr ⟨s, hs, ?_⟩
  by_cases hn : .stmt i ∈ nodes'
  · rcases hdead with ⟨-, huseless⟩ | ⟨hnot, -⟩
    · exact .inl ⟨hn, huseless⟩
    · exact absurd (hnodes _ hn) hnot
  · exact .inr ⟨hn, hline⟩

end Method

end FlowLint
