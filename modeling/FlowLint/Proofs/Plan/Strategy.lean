import FlowLint.Proofs.Except
import FlowLint.Dataflow.Worklist

/-! # Texts that name a strategy

A text names a strategy if it is the name in either case with any white space around it. No text
names two, and a text is read as the strategy that it names.
-/
namespace FlowLint

namespace Text

theorem toLower_of_isBlank {c : Char} (h : isBlank c = true) : c.toLower = c := by
  have hcase : ¬(c.val ≥ 'A'.val ∧ c.val ≤ 'Z'.val) := by
    rintro ⟨hlow, hhigh⟩
    have hlow : 0x41 ≤ c.toNat := hlow
    have hhigh : c.toNat ≤ 0x5a := hhigh
    simp only [isBlank, Bool.or_eq_true, Bool.and_eq_true, decide_eq_true_eq, beq_iff_eq] at h
    omega
  exact dif_neg hcase

/-- White space around a text without any is stripped. -/
theorem strip_append {front core back : List Char} (hfront : ∀ c ∈ front, isBlank c = true)
    (hcore : ∀ c ∈ core, isBlank c = false) (hback : ∀ c ∈ back, isBlank c = true) :
    strip (front ++ core ++ back) = core := by
  have hleft : ∀ cs : List Char, (∀ c ∈ cs, isBlank c = false) → cs.dropWhile isBlank = cs := by
    intro cs hcs
    cases cs with
    | nil => rfl
    | cons c rest => exact List.dropWhile_cons_of_neg (by simp [hcs c List.mem_cons_self])
  have hright : ((core ++ back).dropWhile isBlank).reverse.dropWhile isBlank = core.reverse := by
    cases core with
    | nil =>
      have hdrop : (back ++ []).dropWhile isBlank = [] := List.dropWhile_append_of_pos hback
      rw [List.append_nil] at hdrop
      rw [List.nil_append, hdrop]
      rfl
    | cons c rest =>
      rw [List.cons_append, List.dropWhile_cons_of_neg (by simp [hcore c List.mem_cons_self]),
        ← List.cons_append, List.reverse_append,
        List.dropWhile_append_of_pos fun b hb => hback b (List.mem_reverse.mp hb)]
      exact hleft _ fun b hb => hcore b (List.mem_reverse.mp hb)
  rw [strip, List.append_assoc, List.dropWhile_append_of_pos hfront, hright, List.reverse_reverse]

theorem exists_of_strip (s : List Char) : ∃ front back, s = front ++ strip s ++ back ∧
    (∀ c ∈ front, isBlank c = true) ∧ ∀ c ∈ back, isBlank c = true := by
  refine ⟨s.takeWhile isBlank, ((s.dropWhile isBlank).reverse.takeWhile isBlank).reverse, ?_, ?_,
    ?_⟩
  · rw [strip, List.append_assoc, ← List.reverse_append, List.takeWhile_append_dropWhile,
      List.reverse_reverse, List.takeWhile_append_dropWhile]
  · exact List.all_eq_true.mp List.all_takeWhile
  · intro c hc
    exact List.all_eq_true.mp List.all_takeWhile c (List.mem_reverse.mp hc)

/-- A text is a name if it is the name in either case between white space. -/
theorem isName_iff {name s : String} (hname : ∀ c ∈ name.toList, isBlank c = false) :
    isName name s = true ↔ ∃ front core back, s.toList = front ++ core ++ back ∧
      (∀ c ∈ front, isBlank c = true) ∧ (∀ c ∈ back, isBlank c = true) ∧
      core.map Char.toLower = name.toList := by
  rw [isName, beq_iff_eq]
  constructor
  · intro h
    obtain ⟨front, back, hs, hfront, hback⟩ := exists_of_strip s.toList
    exact ⟨front, _, back, hs, hfront, hback, h⟩
  · rintro ⟨front, core, back, hs, hfront, hback, hcore⟩
    have hfull : ∀ c ∈ core, isBlank c = false := by
      intro c hc
      by_contra hblank
      rw [Bool.not_eq_false] at hblank
      -- a blank is its own lower case, so the name would hold it too
      have hmem : c.toLower ∈ name.toList := hcore ▸ List.mem_map_of_mem hc
      rw [toLower_of_isBlank hblank] at hmem
      rw [hname c hmem] at hblank
      cases hblank
    rw [hs, strip_append hfront hfull hback, hcore]

end Text

theorem CodeText.toString?_eq_some_iff {t : CodeText} {s : String} :
    t.toString? = some s ↔ t = ofString s := by
  constructor
  · intro h
    obtain ⟨cs, hcs, rfl⟩ := Option.map_eq_some_iff.mp h
    have hpoints : t.points = cs.map .char := by
      refine List.forall₂_eq_eq_eq ▸ List.forall₂_map_right_iff.mpr ?_
      refine (mapM_eq_some_iff.mp hcs).imp fun p c hpc => ?_
      cases p with
      | char d => exact congrArg CodePoint.char (Option.some.inj hpc)
      | surrogate offset => cases hpc
    rw [ofString, String.toList_ofList, ← hpoints]
  · rintro rfl
    exact toString?_ofString s

namespace Strategy
variable {s : Strategy} {t : CodeText}

/-- A text that names a strategy: its name in either case, with any white space around it. -/
def IsNamed (s : Strategy) (t : CodeText) : Prop :=
  ∃ front core back : List Char, t.points = (front ++ core ++ back).map .char ∧
    (∀ c ∈ front, Text.isBlank c = true) ∧ (∀ c ∈ back, Text.isBlank c = true) ∧
    core.map Char.toLower = s.name.toList

theorem isNamed_iff : s.IsNamed t ↔ t.toString?.any (Text.isName s.name) = true := by
  have hname : ∀ c ∈ s.name.toList, Text.isBlank c = false := by
    cases s <;> simp [name, Text.isBlank]
  constructor
  · rintro ⟨front, core, back, ht, h⟩
    have htext : t.toString? = some (String.ofList (front ++ core ++ back)) := by
      rw [CodeText.toString?_eq_some_iff, CodeText.ofString, String.toList_ofList, ← ht]
    rw [htext, Option.any_some, Text.isName_iff hname]
    exact ⟨front, core, back, String.toList_ofList, h⟩
  · intro h
    obtain ⟨u, hu, hnamed⟩ := (Option.any_eq_true _ _).mp h
    obtain ⟨front, core, back, hs, h⟩ := (Text.isName_iff hname).mp hnamed
    refine ⟨front, core, back, ?_, h⟩
    rw [CodeText.toString?_eq_some_iff.mp hu, ← hs]
    rfl

theorem name_inj {s' : Strategy} : s.name = s'.name ↔ s = s' := by
  cases s <;> cases s' <;> decide

/-- No text names two strategies. -/
theorem IsNamed.unique {s' : Strategy} (h : s.IsNamed t) (h' : s'.IsNamed t) : s = s' := by
  obtain ⟨u, hu, hs⟩ := (Option.any_eq_true _ _).mp (isNamed_iff.mp h)
  obtain ⟨u', hu', hs'⟩ := (Option.any_eq_true _ _).mp (isNamed_iff.mp h')
  obtain rfl : u = u' := Option.some.inj (hu.symm.trans hu')
  exact name_inj.mp (String.toList_inj.mp ((eq_of_beq hs).symm.trans (eq_of_beq hs')))

/-- A text is read as the strategy that it names. -/
theorem ofName_settles (t : CodeText) :
    Settles .invalidOption (∃ s : Strategy, s.IsNamed t) (·.IsNamed t) (ofName t) := by
  rw [ofName]
  cases hfind : all.find? fun x => t.toString?.any (Text.isName x.name) with
  | some s =>
    have hs := List.find?_some hfind
    exact .ok ⟨s, isNamed_iff.mpr hs⟩ (isNamed_iff.mpr hs)
  | none =>
    refine .error ?_ rfl
    rintro ⟨s, hs⟩
    have hmem : s ∈ all := by cases s <;> decide
    exact List.find?_eq_none.mp hfind s hmem (isNamed_iff.mp hs)

end Strategy

end FlowLint
