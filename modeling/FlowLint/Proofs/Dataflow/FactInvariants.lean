import FlowLint.Proofs.Dataflow.Visits
import FlowLint.Proofs.Feasible
import FlowLint.Proofs.Variables

/-! # What the facts of a run bind

Every fact of constant propagation binds tracked variables that the method assigns, and to words,
whatever the edges of the graph and wherever the run stops: merges and transfers keep it so. So no
expression fails to evaluate, neither during a run nor when branches are pruned by its facts.
-/
namespace FlowLint

/-- Whether a variable is a parameter of a method or is assigned in its body. -/
def Method.Assigns (m : Method) (x : Var) : Prop :=
  x ∈ m.params ∨ ∃ s ∈ m.body, s.action.defines? = some x

namespace Constants
variable {m : Method} {f : Constants}

/-- Tracked variables that a method assigns are bound, each once, to words or to no constant. -/
structure BindsWords (m : Method) (f : Constants) : Prop where
  nodup : f.keys.Nodup
  tracked : ∀ x ∈ f.keys, x.holdsInt = true
  assigned : ∀ x ∈ f.keys, m.Assigns x
  stored : ∀ b ∈ f.entries, b.2 ≠ .undef
  word : ∀ b ∈ f.entries, ∀ n, b.2 = .const n → -2147483648 ≤ n ∧ n ≤ 2147483647

/-- A fact that is valid and knows of variables that the method assigns only. -/
structure Proper (m : Method) (f : Constants) : Prop extends f.Valid where
  assigned : ∀ x, f.get x ≠ .undef → m.Assigns x

theorem Proper.bindsWords (hf : f.Proper m) : f.BindsWords m := by
  have hget : ∀ b ∈ f.entries, f.get b.1 = b.2 := fun b hb =>
    FactMap.get_of_find? (FactMap.find?_of_mem hf.canonical.nodup hb)
  have hstored : ∀ b ∈ f.entries, b.2 ≠ .undef := hf.canonical.ne_default Value.same_iff
  have hkeys : ∀ x ∈ f.keys, f.get x ≠ .undef := by
    intro x hx
    obtain ⟨b, hb, rfl⟩ := List.mem_map.mp hx
    rw [hget b hb]
    exact hstored b hb
  refine ⟨hf.canonical.nodup, fun x hx => hf.tracked x (hkeys x hx),
    fun x hx => hf.assigned x (hkeys x hx), hstored, fun b hb n hn => ?_⟩
  exact Word32.wrap_eq_self_iff.mp (hf.words b.1 n ((hget b hb).trans hn))

end Constants

theorem Graph.feasible_ok (g : Graph) {r : Solution Constants} (hr : ∀ n, (r.before n).Valid) :
    ∃ nodes, g.feasible r = .ok nodes := by
  refine Walk.closure_ok (fun n => ?_) _ _ _
  obtain ⟨es, hes, -⟩ := feasibleEdges_spec (g := g) (hr n) n
  rw [hes]
  exact ⟨_, rfl⟩

namespace ConstantPropagation
open Solver

theorem keeps_proper (m : Method) : analysis.Keeps m (Constants.Proper m) where
  initial := ⟨Constants.valid_empty, fun _ hx => absurd rfl hx⟩
  boundary := ⟨boundary_valid m, fun _ hx => .inl (mem_params_of_get_boundary hx)⟩
  merge hf ht := by
    refine ⟨hf.toValid.merge ht.toValid, fun x hx => ?_⟩
    exact (Constants.ne_undef_of_merge hf.canonical hx).elim (hf.assigned x) (ht.assigned x)
  transfer n f hf := by
    obtain ⟨h, hh, hv⟩ := transfer_valid (m.stmtAt n) hf.toValid
    refine ⟨h, hh, hv, fun x hx => ?_⟩
    rcases get_transfer hh hx with hx | hd
    · exact hf.assigned x hx
    · rcases m.mem_body_or_nop n with hs | ⟨label, hs⟩
      · exact .inr ⟨_, hs, hd⟩
      · rw [hs] at hd
        cases hd

/-- On every graph, under every strategy and after any number of visits, all facts bind tracked
variables that the method assigns to words, and no expression fails to evaluate under what a node is
about to consume. So a run comes to a result under every bound, and its branches can be pruned. -/
theorem visits_bindWords (g : Graph) (s : Strategy) :
    (∀ ns st, Visits analysis g (start analysis s g) ns st → ∀ n,
      (st.consumedAt analysis n).BindsWords g.method ∧
      (st.producedAt analysis n).BindsWords g.method ∧
      ∀ e : Expr, ∃ v, e.eval (consume analysis g st n) = .ok v) ∧
    ∀ bound, ∃ ns st, Visits analysis g (start analysis s g) ns st ∧ ns.length ≤ bound.toNat ∧
      let r := st.solution analysis g
      solve analysis s bound g = .ok r ∧ (∀ n (e : Expr), ∃ v, e.eval (r.before n) = .ok v) ∧
        ∃ nodes, g.feasible r = .ok nodes := by
  have hkeeps := keeps_proper g.method
  have hall : ∀ ns st, Visits analysis g (start analysis s g) ns st →
      st.All analysis (Constants.Proper g.method) :=
    fun ns st h => h.all hkeeps (start_all hkeeps s)
  constructor
  · intro ns st h n
    have hst := hall ns st h
    refine ⟨(hst n).1.bindsWords, (hst n).2.bindsWords, fun e => ?_⟩
    obtain ⟨v, hv, -⟩ := e.eval_word (consume_all hkeeps hst n).words
    exact ⟨v, hv⟩
  · intro bound
    obtain ⟨ns, st, hvisits, hlen, hsolve⟩ := exists_visits_solve hkeeps s bound
    have hvalid : ∀ n, ((st.solution analysis g).before n).Valid :=
      fun n => (hall ns st hvisits n).1.toValid
    refine ⟨ns, st, hvisits, hlen, hsolve, fun n e => ?_, g.feasible_ok hvalid⟩
    obtain ⟨v, hv, -⟩ := e.eval_word (hvalid n).words
    exact ⟨v, hv⟩

/-- A quotient whose divisor is no word as it is written, and zero as a word. -/
def overflowing : Method where
  name := "overflow"
  file := "overflow.ir"
  params := [⟨"p", "p", .prim .int⟩]
  body := [
    ⟨1, .assign (.var ⟨"x", "x", .prim .int⟩) (.lit 4294967296)⟩,
    ⟨2, .assign (.var ⟨"y", "y", .prim .int⟩)
      (.bin .div (.var ⟨"p", "p", .prim .int⟩) (.var ⟨"x", "x", .prim .int⟩))⟩,
    ⟨3, .ret (some (.var ⟨"y", "y", .prim .int⟩))⟩]
  targets_lt := by decide

/-- After two visits the divisor is known, and the quotient is evaluated under what is known. -/
theorem overflowing_bindWords : ∃ g st, Graph.build overflowing = .ok g ∧
    Visits analysis g (start analysis .fifo g) [.stmt 0, .stmt 1] st ∧
    (st.consumedAt analysis (.stmt 1)).get ⟨"x", "x", .prim .int⟩ = .const 0 ∧
    (st.consumedAt analysis (.stmt 1)).BindsWords overflowing ∧
    ∃ v, (Expr.bin .div (.var ⟨"p", "p", .prim .int⟩) (.var ⟨"x", "x", .prim .int⟩)).eval
      (consume analysis g st (.stmt 1)) = .ok v := by
  obtain ⟨g, st, hb, hvisits, hx⟩ : ∃ g st, Graph.build overflowing = .ok g ∧
      Visits analysis g (start analysis .fifo g) [.stmt 0, .stmt 1] st ∧
      (st.consumedAt analysis (.stmt 1)).get ⟨"x", "x", .prim .int⟩ = .const 0 :=
    ⟨_, _, rfl, .cons rfl rfl (.cons rfl rfl (.nil _)), rfl⟩
  obtain ⟨hconsumed, -, heval⟩ := (visits_bindWords g .fifo).1 _ _ hvisits (.stmt 1)
  rw [(Graph.build_spec hb).1] at hconsumed
  exact ⟨g, st, hb, hvisits, hx, hconsumed, heval _⟩

end ConstantPropagation

end FlowLint
