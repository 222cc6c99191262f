import FlowLint.Fact.Map
import Mathlib.Data.List.Perm.Subperm

/-! # Canonical map facts

A canonical fact binds every key at most once and none to the default. Such facts are determined by
look-up: two of them have the same entries exactly when every key has the same value in both.
-/
namespace FlowLint.FactMap
variable {κ ν : Type} [BEq κ] [LawfulBEq κ] [FactValue ν] {d : ν}

/-- Every key is bound once, and to another value than the default. -/
structure Canonical (f : FactMap κ ν d) : Prop where
  nodup : f.keys.Nodup
  stored : ∀ b ∈ f.entries, FactValue.same b.2 d = false

omit [FactValue ν] in
theorem mem_of_find? {f : FactMap κ ν d} {k : κ} {v : ν} (h : f.find? k = some v) :
    (k, v) ∈ f.entries := by
  obtain ⟨xs, ys, he, -⟩ := List.lookup_eq_some_iff.mp h
  rw [he]
  simp

omit [FactValue ν] in
theorem lookup_of_mem {k : κ} {v : ν} {es : List (κ × ν)} (hn : (es.map (·.1)).Nodup)
    (h : (k, v) ∈ es) : es.lookup k = some v := by
  induction es with
  | nil => cases h
  | cons b rest ih =>
    obtain ⟨hb, hr⟩ := List.nodup_cons.mp hn
    rcases List.mem_cons.mp h with rfl | h
    · simp
    · have hne : k ≠ b.1 := by
        rintro rfl
        exact hb (List.mem_map.mpr ⟨_, h, rfl⟩)
      rw [List.lookup_cons, beq_eq_false_iff_ne.mpr hne]
      exact ih hr h

omit [FactValue ν] in
theorem lookup_of_not_mem {k : κ} {es : List (κ × ν)} (h : k ∉ es.map (·.1)) :
    es.lookup k = none := by
  apply List.lookup_eq_none_iff.mpr
  intro b hb
  apply bne_iff_ne.mpr
  rintro rfl
  exact h (List.mem_map.mpr ⟨b, hb, rfl⟩)

omit [FactValue ν] in
theorem find?_of_mem {f : FactMap κ ν d} {k : κ} {v : ν} (hn : f.keys.Nodup)
    (h : (k, v) ∈ f.entries) : f.find? k = some v := lookup_of_mem hn h

omit [FactValue ν] in
theorem mem_keys_iff {f : FactMap κ ν d} {k : κ} : k ∈ f.keys ↔ ∃ v, f.find? k = some v := by
  constructor
  · intro h
    cases hv : f.find? k with
    | some v => exact ⟨v, rfl⟩
    | none =>
      obtain ⟨b, hb, rfl⟩ := List.mem_map.mp h
      have := List.lookup_eq_none_iff.mp hv b hb
      simp at this
  · rintro ⟨v, hv⟩
    exact List.mem_map.mpr ⟨_, mem_of_find? hv, rfl⟩

omit [FactValue ν] in
theorem get_of_not_mem {f : FactMap κ ν d} {k : κ} (h : k ∉ f.keys) : f.get k = d := by
  rw [get, find?, lookup_of_not_mem h]
  rfl

omit [FactValue ν] [LawfulBEq κ] in
theorem get_of_find? {f : FactMap κ ν d} {k : κ} {v : ν} (h : f.find? k = some v) :
    f.get k = v := by
  rw [get, h]
  rfl

omit [FactValue ν] in
theorem contains_iff_mem_keys {f : FactMap κ ν d} {k : κ} : f.contains k = true ↔ k ∈ f.keys := by
  rw [mem_keys_iff, contains, Option.isSome_iff_exists]

theorem get_remove (f : FactMap κ ν d) (k k' : κ) :
    (f.remove k).1.get k' = if k' == k then d else f.get k' := by
  rw [get, get, find?_remove]
  split <;> rfl

theorem get_update (f : FactMap κ ν d) (k k' : κ) (v : ν) : (f.update k v).1.get k' =
    if k' == k then (if FactValue.same v d then d else v) else f.get k' := by
  rw [get, get, find?_update]
  split
  · split <;> rfl
  · rfl

omit [FactValue ν] in
theorem keys_bind (k : κ) (v : ν) (es : List (κ × ν)) :
    (bind k v es).map (·.1) = es.map (·.1) ∨
      k ∉ es.map (·.1) ∧ (bind k v es).map (·.1) = es.map (·.1) ++ [k] := by
  induction es with
  | nil => right; simp [bind]
  | cons b rest ih =>
    obtain ⟨k₀, v₀⟩ := b
    by_cases h : k₀ = k
    · left; simp [bind, h]
    · have hb : (k₀ == k) = false := beq_eq_false_iff_ne.mpr h
      simp only [bind, hb, Bool.false_eq_true, ↓reduceIte, List.map_cons]
      rcases ih with ih | ⟨hk, ih⟩
      · left; rw [ih]
      · right
        refine ⟨?_, by rw [ih]; rfl⟩
        intro hm
        rcases List.mem_cons.mp hm with he | hm
        · exact h he.symm
        · exact hk hm

omit [FactValue ν] in
theorem nodup_keys_bind {es : List (κ × ν)} (h : (es.map (·.1)).Nodup) (k : κ) (v : ν) :
    ((bind k v es).map (·.1)).Nodup := by
  rcases keys_bind k v es with he | ⟨hk, he⟩
  · rw [he]
    exact h
  · rw [he]
    exact List.nodup_append.mpr ⟨h, by simp, by
      intro a ha b hb hab
      exact hk (List.mem_singleton.mp hb ▸ hab ▸ ha)⟩

omit [FactValue ν] [LawfulBEq κ] in
theorem snd_of_mem_bind {k : κ} {v : ν} {es : List (κ × ν)} {b : κ × ν} (h : b ∈ bind k v es) :
    b ∈ es ∨ b.2 = v := by
  induction es with
  | nil =>
    rw [bind, List.mem_singleton] at h
    exact .inr (by rw [h])
  | cons c rest ih =>
    obtain ⟨k₀, v₀⟩ := c
    rw [bind] at h
    split at h
    · rcases List.mem_cons.mp h with rfl | h
      · exact .inr rfl
      · exact .inl (List.mem_cons_of_mem _ h)
    · rcases List.mem_cons.mp h with rfl | h
      · exact .inl List.mem_cons_self
      · exact (ih h).imp (List.mem_cons_of_mem _) id

omit [LawfulBEq κ] in
theorem nodup_keys_remove {f : FactMap κ ν d} (h : f.keys.Nodup) (k : κ) :
    (f.remove k).1.keys.Nodup := by
  rw [remove]
  split
  · exact h
  · exact h.sublist (List.filter_sublist.map _)

theorem nodup_keys_update {f : FactMap κ ν d} (h : f.keys.Nodup) (k : κ) (v : ν) :
    (f.update k v).1.keys.Nodup := by
  rw [update]
  split
  · exact nodup_keys_remove h k
  · exact nodup_keys_bind h k v

omit [FactValue ν] in
/-- Of the bindings of a key the last one counts. -/
theorem lookup_foldl_bind (bindings es : List (κ × ν)) (k : κ) :
    (bindings.foldl (fun es b => bind b.1 b.2 es) es).lookup k =
      (bindings.reverse.lookup k).or (es.lookup k) := by
  induction bindings generalizing es with
  | nil => rfl
  | cons b rest ih =>
    rw [List.foldl_cons, ih, lookup_bind, List.reverse_cons, List.lookup_append, Option.or_assoc,
      List.lookup_cons, List.lookup_nil]
    cases k == b.1 <;> rfl

omit [FactValue ν] in
theorem nodup_keys_foldl_bind (bindings es : List (κ × ν)) (h : (es.map (·.1)).Nodup) :
    ((bindings.foldl (fun es b => bind b.1 b.2 es) es).map (·.1)).Nodup := by
  induction bindings generalizing es with
  | nil => exact h
  | cons b rest ih => exact ih _ (nodup_keys_bind h b.1 b.2)

omit [BEq κ] [LawfulBEq κ] in
theorem canonical_empty : (empty : FactMap κ ν d).Canonical := ⟨List.nodup_nil, nofun⟩

omit [LawfulBEq κ] in
theorem Canonical.remove {f : FactMap κ ν d} (h : f.Canonical) (k : κ) :
    (f.remove k).1.Canonical := by
  refine ⟨nodup_keys_remove h.nodup k, ?_⟩
  rw [FactMap.remove]
  split
  · exact h.stored
  · exact fun b hb => h.stored b (List.mem_of_mem_filter hb)

theorem Canonical.update {f : FactMap κ ν d} (h : f.Canonical) (k : κ) (v : ν) :
    (f.update k v).1.Canonical := by
  refine ⟨nodup_keys_update h.nodup k v, ?_⟩
  rw [FactMap.update]
  split
  · exact (h.remove k).stored
  · next hv =>
    intro b hb
    rcases snd_of_mem_bind hb with hb | hb
    · exact h.stored b hb
    · rw [hb]
      exact Bool.eq_false_iff.mpr hv

theorem canonical_ofList (bindings : List (κ × ν)) :
    (ofList bindings : FactMap κ ν d).Canonical := by
  rw [ofList]
  refine List.foldlRecOn _ _ canonical_empty fun f hf b _ => ?_
  exact hf.update b.1 b.2

/-- Facts have the same entries when they bind the same keys, each to the same value. -/
theorem sameEntries_iff {e : ν} {f : FactMap κ ν d} {g : FactMap κ ν e} (hf : f.keys.Nodup)
    (hg : g.keys.Nodup) : f.sameEntries g = true ↔ (∀ k, f.contains k = g.contains k) ∧
      ∀ k v w, f.find? k = some v → g.find? k = some w → FactValue.same v w = true := by
  simp only [sameEntries, Bool.and_eq_true, beq_iff_eq, List.all_eq_true]
  constructor
  · rintro ⟨hsize, hall⟩
    have hfound : ∀ k v, f.find? k = some v →
        ∃ w, g.find? k = some w ∧ FactValue.same v w = true := by
      intro k v hv
      have h := hall (k, v) (mem_of_find? hv)
      cases hw : g.find? k with
      | none => simp [hw] at h
      | some w => exact ⟨w, rfl, by simpa [hw] using h⟩
    have hsub : f.keys ⊆ g.keys := by
      intro k hk
      obtain ⟨v, hv⟩ := mem_keys_iff.mp hk
      obtain ⟨w, hw, -⟩ := hfound k v hv
      exact mem_keys_iff.mpr ⟨w, hw⟩
    -- equally many distinct keys: no key of the second fact is missing from the first
    have hperm : f.keys.Perm g.keys := by
      apply (List.subperm_of_subset hf hsub).perm_of_length_le
      simpa [keys, size] using Nat.le_of_eq hsize.symm
    constructor
    · intro k
      rw [Bool.eq_iff_iff, contains_iff_mem_keys, contains_iff_mem_keys]
      exact hperm.mem_iff
    · intro k v w hv hw
      obtain ⟨w', hw', hsame⟩ := hfound k v hv
      cases hw.symm.trans hw'
      exact hsame
  · rintro ⟨hcontains, hsame⟩
    constructor
    · have hperm : f.keys.Perm g.keys := by
        apply (List.perm_ext_iff_of_nodup hf hg).mpr
        intro k
        rw [← contains_iff_mem_keys, ← contains_iff_mem_keys, hcontains]
      simpa [keys, size] using hperm.length_eq
    · intro b hb
      have hv := find?_of_mem hf hb
      obtain ⟨w, hw⟩ : ∃ w, g.find? b.1 = some w := by
        rw [← Option.isSome_iff_exists, ← contains, ← hcontains, contains, hv, Option.isSome_some]
      rw [hw]
      exact hsame b.1 b.2 w hv hw

section Lawful
variable {e : ν} (lawful : ∀ v w : ν, FactValue.same v w = true ↔ v = w)
include lawful

theorem sameEntries_iff_find? {f : FactMap κ ν d} {g : FactMap κ ν e} (hf : f.keys.Nodup)
    (hg : g.keys.Nodup) : f.sameEntries g = true ↔ ∀ k, f.find? k = g.find? k := by
  rw [sameEntries_iff hf hg]
  constructor
  · rintro ⟨hcontains, hsame⟩ k
    have hk := hcontains k
    rw [contains, contains] at hk
    cases hv : f.find? k with
    | none =>
      rw [hv, Option.isSome_none, eq_comm, Option.isSome_eq_false_iff,
        Option.isNone_iff_eq_none] at hk
      exact hk.symm
    | some v =>
      rw [hv, Option.isSome_some, eq_comm, Option.isSome_iff_exists] at hk
      obtain ⟨w, hw⟩ := hk
      rw [hw, (lawful v w).mp (hsame k v w hv hw)]
  · intro h
    refine ⟨fun k => congrArg Option.isSome (h k), fun k v w hv hw => (lawful v w).mpr ?_⟩
    rw [h, hw] at hv
    exact (Option.some.inj hv).symm

omit [BEq κ] [LawfulBEq κ] in
theorem Canonical.ne_default {f : FactMap κ ν d} (hf : f.Canonical) :
    ∀ b ∈ f.entries, b.2 ≠ d := by
  intro b hb he
  have hstored := hf.stored b hb
  rw [(lawful b.2 d).mpr he] at hstored
  cases hstored

theorem Canonical.find?_eq_some_iff {f : FactMap κ ν d} (hf : f.Canonical) {k : κ} {v : ν} :
    f.find? k = some v ↔ f.get k = v ∧ v ≠ d := by
  constructor
  · intro h
    exact ⟨get_of_find? h, hf.ne_default lawful _ (mem_of_find? h)⟩
  · rintro ⟨rfl, hne⟩
    cases hv : f.find? k with
    | some v => rw [get_of_find? hv]
    | none =>
      rw [get, hv] at hne
      exact absurd rfl hne

/-- Canonical facts have the same entries when they give every key the same value. -/
theorem Canonical.sameEntries_iff_get {f g : FactMap κ ν d} (hf : f.Canonical)
    (hg : g.Canonical) : f.sameEntries g = true ↔ ∀ k, f.get k = g.get k := by
  rw [sameEntries_iff_find? lawful hf.nodup hg.nodup]
  constructor
  · intro h k
    rw [get, get, h]
  · intro h k
    apply Option.ext
    intro v
    rw [hf.find?_eq_some_iff lawful, hg.find?_eq_some_iff lawful, h]

end Lawful

end FlowLint.FactMap
