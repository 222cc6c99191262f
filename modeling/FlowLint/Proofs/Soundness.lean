import FlowLint.Proofs.Evaluation
import FlowLint.Proofs.Execution
import FlowLint.Proofs.Feasible

/-! # Soundness of constants and of pruned branches

What constant propagation knows before a node holds in every run that comes there, and every run
stays on feasible nodes. A definition of a tracked variable must not read an untracked one, of which
the analysis takes nothing to be known.
-/
namespace FlowLint

def Stmt.mixesTracked (s : Stmt Nat) : Bool := s.tracked?.any fun p => p.2.readsUntracked

/-- Tracked variables are defined from tracked variables only. -/
def Method.TracksOperands (m : Method) : Prop := ∀ s ∈ m.body, s.mixesTracked = false

instance (m : Method) : Decidable m.TracksOperands :=
  inferInstanceAs (Decidable (∀ s ∈ m.body, s.mixesTracked = false))

/-- The words of tracked variables are among what is known of them. -/
def WordStore.DescribedBy (σ : WordStore) (f : Constants) : Prop :=
  ∀ x, x.holdsInt = true → ∀ w, σ x = some w → (Value.const w.toInt).leq (f.get x) = true

/-- A value that takes a word into account, or says nothing for want of a tracked operand. -/
def Value.Covers (v : Value) (e : Expr) (w : BitVec 32) : Prop :=
  (Value.const w.toInt).leq v = true ∨ v = .undef ∧ e.readsUntracked = true

variable {σ σ' : WordStore} {f h : Constants} {e : Expr} {w : BitVec 32}

theorem WordStore.DescribedBy.mono (hσ : σ.DescribedBy f) (hfh : f.leq h = true) :
    σ.DescribedBy h :=
  fun x hx w hw => Value.leq_trans (hσ x hx w hw) (Constants.leq_iff.mp hfh x)

theorem Value.Covers.eq_toInt {n : Int} (h : (Value.const n).Covers e w) : n = w.toInt :=
  (Value.const_leq_const.mp (h.resolve_right (by simp))).symm

theorem BinOp.onValues_covers {op : BinOp} {l r : Expr} {a b : BitVec 32} {u v : Value}
    (hu : u.Covers l a) (hv : v.Covers r b) (huw : u.IsWord) (hvw : v.IsWord)
    (hop : op.traps = true → b ≠ 0) :
    ∃ k, op.onValues u v = .ok k ∧ k.Covers (.bin op l r) (op.onBits a b) := by
  have hzero : op.traps = true → Word32.wrap b.toInt ≠ 0 := by
    intro ht hb
    rw [Word32.wrap_toInt] at hb
    exact hop ht (BitVec.eq_of_toInt_eq hb)
  obtain ⟨k, hk, hcov⟩ := onValues_covers_onInts hu hv huw hvw hzero
  rw [onInts_toInt, ← Bool.or_eq_true] at hcov
  exact ⟨k, hk, hcov⟩

/-- Evaluation covers every word that an expression may have. -/
theorem Yields.covered (hf : f.Valid) (hσ : σ.DescribedBy f) (hy : Yields σ e w) :
    ∃ v, e.eval f = .ok v ∧ v.Covers e w := by
  induction hy with
  | lit n =>
    refine ⟨_, rfl, .inl ?_⟩
    rw [Word32.wrap_eq]
    exact Value.leq_refl _
  | @var x w hw =>
    refine ⟨_, rfl, ?_⟩
    cases hx : x.holdsInt with
    | true => exact .inl (hσ x hx w hw)
    | false =>
      -- nothing is ever known of a variable that is not tracked
      refine .inr ⟨?_, by simp [Expr.readsUntracked, hx]⟩
      by_contra hne
      rw [hf.tracked x hne] at hx
      cases hx
  | @bin op l r a b _ _ hop ihl ihr =>
    obtain ⟨u, hu, hua⟩ := ihl
    obtain ⟨v, hv, hvb⟩ := ihr
    obtain ⟨u', hu', huw⟩ := l.eval_word hf.words
    obtain ⟨v', hv', hvw⟩ := r.eval_word hf.words
    obtain rfl := Except.ok.inj (hu.symm.trans hu')
    obtain rfl := Except.ok.inj (hv.symm.trans hv')
    rw [Expr.eval_bin_of hu hv]
    exact BinOp.onValues_covers hua hvb huw hvw hop
  | @any e he w =>
    refine ⟨.nac, ?_, .inl (Value.leq_nac _)⟩
    cases e <;> first | rfl | cases he

theorem branchAdmits_of_covers {v : Value} {edge : Edge} (h : v.Covers e w)
    (hw : branchAdmits (.const w.toInt) edge = true) : branchAdmits v edge = true := by
  cases v with
  | undef | nac => rfl
  | const n =>
    rw [h.eq_toInt]
    exact hw

theorem switchAdmits_of_covers {cases : List Int} {v : Value} {edge : Edge} (h : v.Covers e w)
    (hw : switchAdmits cases (.const w.toInt) edge = true) : switchAdmits cases v edge = true := by
  cases v with
  | undef | nac => rfl
  | const n =>
    rw [h.eq_toInt]
    exact hw

/-- The edge that a step follows is one that its action admits. -/
theorem Takes.exists_edge {m : Method} {i j : Nat} {a : Action Nat} (hf : f.Valid)
    (hσ : σ.DescribedBy f) (ha : ∀ t ∈ a.targets, t < m.size) (h : Takes m.size i σ a j σ') :
    ∃ edge, m.Flow i a edge ∧ edge.target = m.nodeAt j ∧ a.Admits f edge := by
  have htarget : j ∈ a.targets → m.nodeAt j = .stmt j := fun hj => Method.nodeAt_of_lt (ha j hj)
  cases h with
  | nop label => exact ⟨_, .nop label, rfl, trivial⟩
  | define hd hy =>
    cases a with
    | assign p e => exact ⟨_, .assign p e, rfl, trivial⟩
    | invoke p e => exact ⟨_, .invoke p e, rfl, trivial⟩
    | _ => cases hd
  | @taken c _ hy =>
    obtain ⟨v, hv, hcov⟩ := hy.covered hf hσ
    have hj := htarget (by simp [Action.targets])
    exact ⟨_, .taken c j, hj.symm, v, hv, branchAdmits_of_covers hcov rfl⟩
  | @notTaken c t hy =>
    obtain ⟨v, hv, hcov⟩ := hy.covered hf hσ
    exact ⟨_, .notTaken c t, rfl, v, hv, branchAdmits_of_covers hcov rfl⟩
  | jump =>
    have hj := htarget (by simp [Action.targets])
    exact ⟨_, .jump j, hj.symm, trivial⟩
  | @case x cases d n _ hx hc =>
    obtain ⟨v, hv, hcov⟩ := (Yields.var hx).covered hf hσ
    obtain rfl : f.get x = v := Except.ok.inj hv
    have hj := htarget (Action.mem_targets_of_case hc)
    refine ⟨_, .case x d hc, hj.symm, switchAdmits_of_covers hcov ?_⟩
    rw [← Word32.wrap_eq]
    simp [switchAdmits]
  | @default x cases _ w hx hc =>
    obtain ⟨v, hv, hcov⟩ := (Yields.var hx).covered hf hσ
    obtain rfl : f.get x = v := Except.ok.inj hv
    have hj := htarget (by simp [Action.targets])
    refine ⟨_, .default x cases j, hj.symm, switchAdmits_of_covers hcov ?_⟩
    refine List.all_eq_true.mpr fun n hn => ?_
    obtain ⟨c, hmem, rfl⟩ := List.mem_map.mp hn
    rw [bne_iff_ne, Word32.wrap_eq]
    intro he
    exact hc c hmem (BitVec.eq_of_toInt_eq he)
  | leave hv => exact ⟨_, .leave _, (Method.nodeAt_size m).symm, trivial⟩

/-- What a statement leaves in the store is described by what its transfer produces. -/
theorem Takes.described {size i j : Nat} {s : Stmt Nat} (hf : f.Valid) (hσ : σ.DescribedBy f)
    (hs : s.mixesTracked = false) (ht : ConstantPropagation.transfer s f = .ok h)
    (hstep : Takes size i σ s.action j σ') : σ'.DescribedBy h := by
  cases htracked : s.tracked? with
  | some p =>
    obtain ⟨x, e⟩ := p
    have hd := (Stmt.tracked?_eq_some_iff.mp htracked).1
    rcases hstep.store_cases with ⟨place, e', w, hd', hy, rfl⟩ | ⟨hd', -⟩
    · cases hd.symm.trans hd'
      obtain ⟨v, hv, hcov⟩ := hy.covered hf hσ
      rw [ConstantPropagation.transfer_of_some htracked, hv] at ht
      cases ht
      rw [Stmt.mixesTracked, htracked] at hs
      have hle : (Value.const w.toInt).leq v = true := by
        refine hcov.resolve_right fun hu => ?_
        exact Bool.eq_false_iff.mp hs hu.2
      intro y hy w' hw'
      rw [Constants.get_update]
      split
      · next hxy =>
        subst hxy
        rw [WordStore.put_var] at hw'
        cases hw'
        exact hle
      · next hxy =>
        have hne : some (LValue.var x) ≠ some (.var y) := by
          rintro ⟨⟩
          exact hxy rfl
        rw [WordStore.put_of_ne σ w hne] at hw'
        exact hσ y hy w' hw'
    · rw [hd] at hd'
      cases hd'
  | none =>
    rw [ConstantPropagation.transfer_of_none htracked] at ht
    cases ht
    rcases hstep.store_cases with ⟨place, e, w, hd, -, rfl⟩ | ⟨-, rfl⟩
    · intro y hy w' hw'
      have hne : place ≠ some (.var y) := by
        intro hplace
        rw [hplace] at hd
        rw [Stmt.tracked?_eq_some_iff.mpr ⟨hd, hy⟩] at htracked
        cases htracked
      rw [WordStore.put_of_ne σ w hne] at hw'
      exact hσ y hy w' hw'
    · exact hσ

theorem WordStore.Initial.described {m : Method} (h : σ.Initial m) :
    σ.DescribedBy (ConstantPropagation.boundary m) := by
  intro x hx w hw
  have hp : x ∈ m.params := (h x).mp (by rw [hw]; rfl)
  rw [ConstantPropagation.get_boundary hp hx]
  exact Value.leq_nac _

/-- A run is where the analysis expects it: on a feasible node, with a store that is described by
what is known before it. -/
structure Config.Expected (m : Method) (r : Solution Constants) (nodes : List Node) (c : Config) :
    Prop where
  feasible : m.nodeAt c.pc ∈ nodes
  described : c.store.DescribedBy (r.before (m.nodeAt c.pc))

variable {m : Method} {g : Graph} {s : Strategy} {bound : Int} {r : Solution Constants}
  {nodes : List Node} {c c' : Config}

section
variable (hb : Graph.build m = .ok g) (hr : solve ConstantPropagation.analysis s bound g = .ok r)
  (hconv : r.converged = true)
include hb hr hconv

/-- What a store is known to be where an edge starts it is known to be where the edge ends. -/
theorem described_target {edge : Edge} (he : edge ∈ g.edges) (hentry : edge.target ≠ .entry)
    (hσ : σ.DescribedBy (r.producedAt edge.source)) : σ.DescribedBy (r.before edge.target) := by
  obtain ⟨-, hg, -⟩ := Graph.build_spec hb
  have hp : edge.source ∈ g.predecessors edge.target :=
    (Graph.mem_predecessors hg).mpr ⟨edge, he, rfl, rfl⟩
  rw [Solution.before_forward (solve_eq hr).1]
  exact hσ.mono (solve_flow ConstantPropagation.lawful hg hr hconv hp hentry)

section
variable (hm : m.TracksOperands)
include hm

theorem step_described (hstep : m.Step c c') (hc : c.Expected m r nodes) :
    c'.store.DescribedBy (r.after (m.nodeAt c.pc)) := by
  obtain ⟨-, hg, -⟩ := Graph.build_spec hb
  obtain ⟨st, hst, htakes⟩ := hstep
  have hσ := hc.described
  rw [Method.nodeAt_of_lt (Method.lt_size_of_body hst)] at hσ ⊢
  have htransfer := solve_transfer ConstantPropagation.lawful hb hr hconv hst
  rw [← Solution.before_forward (solve_eq hr).1, ← Solution.after_forward (solve_eq hr).1]
    at htransfer
  have hvalid := ConstantPropagation.before_valid hg hr (.stmt c.pc)
  exact htakes.described hvalid hσ (hm st (List.mem_of_getElem? hst)) htransfer

/-- A step keeps a run where the analysis expects it. -/
theorem step_expected (hnodes : g.FeasiblyClosed r nodes) (hstep : m.Step c c')
    (hc : c.Expected m r nodes) : c'.Expected m r nodes := by
  have hafter := step_described hb hr hconv hm hstep hc
  obtain ⟨hgm, hg, -, hedges⟩ := Graph.build_spec hb
  obtain ⟨st, hst, htakes⟩ := hstep
  obtain ⟨hin, hσ⟩ := hc
  rw [Method.nodeAt_of_lt (Method.lt_size_of_body hst)] at hin hσ hafter
  have hvalid := ConstantPropagation.before_valid hg hr (.stmt c.pc)
  obtain ⟨e, hflow, htarget, hadmits⟩ :=
    htakes.exists_edge hvalid hσ (m.targets_lt st (List.mem_of_getElem? hst))
  have he : e ∈ g.edges := (hedges e).mpr (.inr ⟨c.pc, st, hst, hflow⟩)
  constructor
  · obtain ⟨es, hes, hmem⟩ := Graph.feasibleEdges_spec (g := g) hvalid (.stmt c.pc)
    rw [← htarget]
    apply hnodes _ hin es hes
    rw [hmem, hgm, Method.stmtAt_of_body hst]
    exact ⟨(Graph.mem_outEdges hg).mpr ⟨he, hflow.source⟩, hadmits⟩
  · rw [← htarget]
    apply described_target hb hr hconv he (by rw [htarget]; exact m.nodeAt_ne_entry c'.pc)
    rw [hflow.source, ← Solution.after_forward (solve_eq hr).1]
    exact hafter

end

theorem initial_expected (hentry : .entry ∈ nodes) (hnodes : g.FeasiblyClosed r nodes)
    (hσ : σ.Initial m) : Config.Expected m r nodes ⟨0, σ⟩ := by
  obtain ⟨hgm, hg, -, hedges⟩ := Graph.build_spec hb
  have he := (hedges ⟨.entry, m.nodeAt 0, .normal, none⟩).mpr (.inl rfl)
  constructor
  · refine hnodes .entry hentry (g.outEdges .entry) rfl ⟨.entry, m.nodeAt 0, .normal, none⟩ ?_
    exact (Graph.mem_outEdges hg).mpr ⟨he, rfl⟩
  · apply described_target hb hr hconv he (m.nodeAt_ne_entry 0)
    have hstart := (solve_settled ConstantPropagation.lawful hg hr hconv).1
    have hprod : r.producedAt .entry = ConstantPropagation.boundary g.method := hstart
    rw [hprod, hgm]
    exact hσ.described

theorem reaches_expected (hm : m.TracksOperands) (hentry : .entry ∈ nodes)
    (hnodes : g.FeasiblyClosed r nodes) (hc : m.Reaches c) : c.Expected m r nodes := by
  obtain ⟨σ, hσ, hrun⟩ := hc
  induction hrun with
  | refl => exact initial_expected hb hr hconv hentry hnodes hσ
  | tail _ hstep ih => exact step_expected hb hr hconv hm hnodes hstep ih

end

/-- Constant propagation and the pruning of branches are sound over whole runs: there are feasible
nodes, every run stays on them, and what is known before and after a statement holds in the run. -/
theorem reaches_sound (hb : Graph.build m = .ok g) (hm : m.TracksOperands)
    (hr : solve ConstantPropagation.analysis s bound g = .ok r) (hconv : r.converged = true) :
    ∃ nodes, g.feasible r = .ok nodes ∧ ∀ c, m.Reaches c → m.nodeAt c.pc ∈ nodes ∧
      c.store.DescribedBy (r.before (m.nodeAt c.pc)) ∧
      ∀ c', m.Step c c' → c'.store.DescribedBy (r.after (m.nodeAt c.pc)) := by
  obtain ⟨-, hg, -, -⟩ := Graph.build_spec hb
  have hvalid := ConstantPropagation.before_valid hg hr
  obtain ⟨nodes, hfeasible, hentry, hnodes⟩ := Graph.feasible_spec hg hvalid
  refine ⟨nodes, hfeasible, fun c hc => ?_⟩
  have hexp := reaches_expected hb hr hconv hm hentry hnodes hc
  exact ⟨hexp.feasible, hexp.described, fun c' hstep =>
    step_described hb hr hconv hm hstep hexp⟩

def skipping : Method where
  name := "skip"
  file := "skip.ir"
  params := [⟨"n", "n", .prim .int⟩]
  body := [
    ⟨1, .assign (.var ⟨"i", "i", .prim .int⟩) (.lit 2)⟩,
    ⟨2, .branch (.bin .lt (.var ⟨"i", "i", .prim .int⟩) (.lit 3)) (some 3)⟩,
    ⟨3, .assign (.var ⟨"i", "i", .prim .int⟩) (.var ⟨"n", "n", .prim .int⟩)⟩,
    ⟨4, .ret (some (.var ⟨"i", "i", .prim .int⟩))⟩]
  targets_lt := by decide

theorem skipping_reaches : ∃ c, skipping.Reaches c ∧ c.pc = 3 ∧
    c.store ⟨"i", "i", .prim .int⟩ = some 2 := by
  let σ : WordStore := fun x => if x = ⟨"n", "n", .prim .int⟩ then some 0 else none
  let σ' : WordStore := σ.put (some (.var ⟨"i", "i", .prim .int⟩)) (BitVec.ofInt 32 2)
  have hσ : σ.Initial skipping := by
    intro x
    by_cases hx : x = ⟨"n", "n", .prim .int⟩ <;> simp [σ, skipping, hx]
  have hset : skipping.Step ⟨0, σ⟩ ⟨1, σ'⟩ := by
    have hy : Yields σ (.lit 2) (BitVec.ofInt 32 2) := .lit 2
    exact ⟨_, rfl, .define (a := .assign (.var ⟨"i", "i", .prim .int⟩) (.lit 2)) rfl hy⟩
  have hlt : Yields σ' (.bin .lt (.var ⟨"i", "i", .prim .int⟩) (.lit 3))
      (BinOp.lt.onBits (BitVec.ofInt 32 2) (BitVec.ofInt 32 3)) := .bin (.var rfl) (.lit 3) nofun
  have hskip : skipping.Step ⟨1, σ'⟩ ⟨3, σ'⟩ := ⟨_, rfl, .taken hlt⟩
  exact ⟨⟨3, σ'⟩, ⟨σ, hσ, .tail (.tail .refl hset) hskip⟩, rfl, rfl⟩

theorem skipping_sound : ∃ g r nodes, Graph.build skipping = .ok g ∧ skipping.TracksOperands ∧
    solve ConstantPropagation.analysis .fifo 100 g = .ok r ∧ r.converged = true ∧
    g.feasible r = .ok nodes ∧ ∃ c, skipping.Reaches c ∧ c.pc = 3 ∧
      c.store ⟨"i", "i", .prim .int⟩ = some 2 ∧ skipping.nodeAt 3 ∈ nodes ∧
      c.store.DescribedBy (r.before (skipping.nodeAt 3)) := by
  obtain ⟨g, r, hb, hr, hconv⟩ : ∃ g r, Graph.build skipping = .ok g ∧
    solve ConstantPropagation.analysis .fifo 100 g = .ok r ∧ r.converged = true :=
    ⟨_, _, rfl, rfl, rfl⟩
  have hm : skipping.TracksOperands := by decide
  obtain ⟨nodes, hnodes, hsound⟩ := reaches_sound hb hm hr hconv
  obtain ⟨c, hc, hpc, hi⟩ := skipping_reaches
  obtain ⟨hin, hbefore, -⟩ := hsound c hc
  rw [hpc] at hin hbefore
  exact ⟨g, r, nodes, hb, hm, hr, hconv, hnodes, c, hc, hpc, hi, hin, hbefore⟩

/-- A variable is assigned the outcome of a comparison of parameters that are not tracked. -/
def comparing : Method where
  name := "compare"
  file := "compare.ir"
  params := [⟨"a", "a", .prim .long⟩, ⟨"b", "b", .prim .long⟩, ⟨"p", "p", .prim .int⟩]
  body := [
    ⟨1, .branch (.bin .eq (.var ⟨"p", "p", .prim .int⟩) (.lit 0)) (some 3)⟩,
    ⟨2, .assign (.var ⟨"x", "x", .prim .int⟩) (.lit 1)⟩,
    ⟨3, .goto (some 4)⟩,
    ⟨4, .assign (.var ⟨"x", "x", .prim .int⟩)
      (.bin .eq (.var ⟨"a", "a", .prim .long⟩) (.var ⟨"b", "b", .prim .long⟩))⟩,
    ⟨5, .branch (.bin .eq (.var ⟨"x", "x", .prim .int⟩) (.lit 1)) (some 6)⟩,
    ⟨6, .ret (some (.lit 0))⟩,
    ⟨7, .ret (some (.lit 1))⟩]
  targets_lt := by decide

theorem comparing_reaches : ∃ c, comparing.Reaches c ∧ c.pc = 5 := by
  let σ : WordStore := fun x =>
    if x ∈ comparing.params then some (if x.id = "b" then 1 else 0) else none
  let σ' : WordStore := σ.put (some (.var ⟨"x", "x", .prim .int⟩)) (BinOp.eq.onBits 0 1)
  have hσ : σ.Initial comparing := by
    intro x
    by_cases hx : x ∈ comparing.params <;> simp [σ, hx]
  have hskip : comparing.Step ⟨0, σ⟩ ⟨3, σ⟩ := by
    have hp : Yields σ (.bin .eq (.var ⟨"p", "p", .prim .int⟩) (.lit 0))
        (BinOp.eq.onBits 0 (BitVec.ofInt 32 0)) := .bin (.var rfl) (.lit 0) nofun
    exact ⟨_, rfl, .taken hp⟩
  have hset : comparing.Step ⟨3, σ⟩ ⟨4, σ'⟩ := by
    have hab : Yields σ (.bin .eq (.var ⟨"a", "a", .prim .long⟩) (.var ⟨"b", "b", .prim .long⟩))
        (BinOp.eq.onBits 0 1) := .bin (.var rfl) (.var rfl) nofun
    exact ⟨_, rfl, .define (a := .assign (.var ⟨"x", "x", .prim .int⟩) _) rfl hab⟩
  have hfall : comparing.Step ⟨4, σ'⟩ ⟨5, σ'⟩ := by
    have hx : Yields σ' (.bin .eq (.var ⟨"x", "x", .prim .int⟩) (.lit 1))
        (BinOp.eq.onBits 0 (BitVec.ofInt 32 1)) := .bin (.var rfl) (.lit 1) nofun
    exact ⟨_, rfl, .notTaken hx⟩
  exact ⟨⟨5, σ'⟩, ⟨σ, hσ, .tail (.tail (.tail .refl hskip) hset) hfall⟩, rfl⟩

/-- Whether a run converges, and whether a position is feasible by its facts. -/
def feasibleAt (m : Method) (i : Nat) : Option (Bool × Bool) := do
  let g ← (Graph.build m).toOption
  let r ← (solve ConstantPropagation.analysis .fifo 100 g).toOption
  let nodes ← (g.feasible r).toOption
  return (r.converged, nodes.contains (m.nodeAt i))

/-- Without tracked operands runs leave the feasible nodes. Here nothing is known of the comparison,
so the variable is taken to be the constant that another path gives it, and a statement that runs
come to is pruned. -/
theorem comparing_not_sound :
    (∃ c, comparing.Reaches c ∧ c.pc = 5) ∧ feasibleAt comparing 5 = some (true, false) :=
  ⟨comparing_reaches, by decide +kernel⟩

end FlowLint
