import FlowLint.Proofs.Graph.Adjacency
import FlowLint.Proofs.Graph.DotString

/-! # What the labels of graphs say

In the labels of nodes quotes and line breaks are escaped but no backslashes, and the title is
written as it is. So a label is read back exactly if none of its backslashes comes last or before a
quote, a backslash or a line break, and a title exactly if it needs no escapes.
-/
namespace FlowLint

open Dot

namespace Graph
variable {g : Graph} {c : Char} {x y rest t : List Char} {k : Nat}

/-- What a label says of a character: a line break is a backslash with an n. -/
def lineChar (c : Char) : List Char := if c = '\n' then ['\\', 'n'] else [c]

def lineText (t : List Char) : List Char := t.flatMap lineChar

/-- Before these a backslash of a label is not read as it stands. -/
def binding : List Char := ['\\', '"', '\n']

theorem escapeLabel_cons (c : Char) (t : List Char) :
    escapeLabel (c :: t) = escapeLabel [c] ++ escapeLabel t := by
  rw [escapeLabel, List.flatMap_cons, escapeLabel, List.flatMap_singleton]
  rfl

theorem readQuoted_escapeLabel_cons (hc : c ≠ '\\') (t x : List Char) :
    readQuoted (escapeLabel (c :: t) ++ x) =
      (readQuoted (escapeLabel t ++ x)).map fun p => (lineChar c ++ p.1, p.2) := by
  rw [escapeLabel_cons, List.append_assoc, lineChar]
  generalize escapeLabel t ++ x = y
  by_cases hquote : c = '"'
  · subst hquote
    rfl
  by_cases hline : c = '\n'
  · subst hline
    change readQuoted ('\\' :: 'n' :: y) = _
    rw [readQuoted_cons (by decide) fun _ => ⟨'n', rfl, by decide⟩,
      readQuoted_cons (by decide) fun h => absurd h (by decide), Option.map_map]
    rfl
  · rw [if_neg hline, escapeLabel, List.flatMap_singleton, if_neg hquote, if_neg hline]
    exact readQuoted_cons hquote fun h => absurd h hc

theorem value?_escapeLabel_cons (hc : c ≠ '\\') (t x : List Char) :
    value? (escapeLabel (c :: t) ++ x) = (value? (escapeLabel t ++ x)).map (lineChar c ++ ·) := by
  rw [value?, readQuoted_escapeLabel_cons hc, value?, Option.map_map, Option.map_map]
  rfl

theorem head?_escapeLabel_of_mem (hc : c ∈ binding) (t x : List Char) :
    (escapeLabel (c :: t) ++ x).head? = some '\\' := by
  simp only [binding, List.mem_cons, List.not_mem_nil, or_false] at hc
  rcases hc with rfl | rfl | rfl <;> rfl

theorem head?_escapeLabel_of_not_mem (hc : c ∉ binding) (t x : List Char) :
    (escapeLabel (c :: t) ++ x).head? = some c := by
  simp only [binding, List.mem_cons, List.not_mem_nil, or_false, not_or] at hc
  rw [escapeLabel, List.flatMap_cons, if_neg hc.2.1, if_neg hc.2.2]
  rfl

theorem readQuoted_escapeLabel (h : Lone binding t) (rest : List Char) :
    readQuoted (escapeLabel t ++ '"' :: rest) = some (lineText t, rest) := by
  induction t with
  | nil => rfl
  | cons c t ih =>
    obtain ⟨hnext, hrest⟩ := lone_cons_iff.mp h
    by_cases hc : c = '\\'
    · subst hc
      obtain ⟨d, hd, hbinding⟩ := hnext rfl
      obtain ⟨u, rfl⟩ := List.head?_eq_some_iff.mp hd
      have hhead := head?_escapeLabel_of_not_mem hbinding u ('"' :: rest)
      simp only [binding, List.mem_cons, not_or] at hbinding
      change readQuoted ('\\' :: (escapeLabel (d :: u) ++ '"' :: rest)) = _
      rw [readQuoted_cons (by decide) fun _ => ⟨d, hhead, hbinding.2.1, hbinding.1⟩, ih hrest]
      rfl
    · rw [readQuoted_escapeLabel_cons hc, ih hrest]
      rfl

theorem ne_lineChar_append (hc : c ≠ '\\') (x y : List Char) :
    lineChar c ++ x ≠ List.replicate (k + 1) '\\' ++ (lineChar c ++ y) := by
  rw [lineChar]
  by_cases hline : c = '\n'
  · cases k <;> simp [hline, List.replicate_succ]
  · simp [hline, hc, List.replicate_succ]

/-- A backslash that makes a pair with what is written for the character behind it is read back only
if that is a backslash too, and then one more has to come from what follows. -/
theorem value?_of_pair (hy : escapeLabel (c :: t) ++ x = '\\' :: y)
    (hv : value? y = some (List.replicate k '\\' ++ lineText (c :: t))) :
    value? (escapeLabel t ++ x) = some (List.replicate (k + 1) '\\' ++ lineText t) := by
  by_cases hc : c ∈ binding
  · simp only [binding, List.mem_cons, List.not_mem_nil, or_false] at hc
    rcases hc with rfl | rfl | rfl
    · obtain ⟨-, rfl⟩ := List.cons.inj hy
      rw [List.replicate_succ, List.cons_append, ← replicate_append_cons]
      exact hv
    · obtain ⟨-, rfl⟩ := List.cons.inj hy
      have hv : [] = List.replicate k '\\' ++ '"' :: lineText t := Option.some.inj hv
      simp at hv
    · obtain ⟨-, rfl⟩ := List.cons.inj hy
      change value? ('n' :: (escapeLabel t ++ x)) =
        some (List.replicate k '\\' ++ '\\' :: 'n' :: lineText t) at hv
      rw [replicate_append_cons, value?_cons (by decide) fun h => absurd h (by decide)] at hv
      obtain ⟨v, -, heq⟩ := Option.map_eq_some_iff.mp hv
      cases heq
  · have hhead := head?_escapeLabel_of_not_mem hc t x
    rw [hy] at hhead
    cases hhead
    exact absurd List.mem_cons_self hc

theorem lone_of_value?_escapeLabel
    (h : value? (escapeLabel t ++ '"' :: rest) = some (List.replicate k '\\' ++ lineText t)) :
    k = 0 ∧ Lone binding t := by
  induction hn : t.length using Nat.strongRecOn generalizing t k with
  | ind n ih =>
  subst hn
  match t with
  | [] =>
    have hv : [] = List.replicate k '\\' ++ [] := Option.some.inj h
    cases k with
    | zero => exact ⟨rfl, lone_nil⟩
    | succ k => cases hv
  | c :: t =>
    by_cases hc : c = '\\'
    · subst hc
      change value? ('\\' :: (escapeLabel t ++ '"' :: rest)) =
        some (List.replicate k '\\' ++ '\\' :: lineText t) at h
      rw [replicate_append_cons] at h
      rcases backslash_of_value? h with ⟨y, hy, hv⟩ | ⟨⟨d, hd, hquote, hbackslash⟩, hv⟩
      · cases t with
        | nil => cases hy
        | cons d t =>
          have hless : t.length < ('\\' :: d :: t).length :=
            Nat.lt_succ_of_lt (Nat.lt_succ_self _)
          cases (ih t.length hless (value?_of_pair hy hv) rfl).1
      · obtain ⟨hk, hlone⟩ := ih t.length (Nat.lt_succ_self _) hv rfl
        refine ⟨hk, lone_cons_iff.mpr ⟨fun _ => ?_, hlone⟩⟩
        cases t with
        | nil => exact absurd (Option.some.inj hd).symm hquote
        | cons e t =>
          refine ⟨e, rfl, fun he => hbackslash ?_⟩
          exact Option.some.inj (hd.symm.trans (head?_escapeLabel_of_mem he t _))
    · rw [value?_escapeLabel_cons hc] at h
      obtain ⟨v, hv, heq⟩ := Option.map_eq_some_iff.mp h
      change lineChar c ++ v = List.replicate k '\\' ++ (lineChar c ++ lineText t) at heq
      cases k with
      | zero =>
        rw [List.append_cancel_left heq] at hv
        obtain ⟨-, hlone⟩ := ih t.length (Nat.lt_succ_self _) (k := 0) hv rfl
        exact ⟨rfl, (lone_cons_of_ne hc).mpr hlone⟩
      | succ k => exact absurd heq (ne_lineChar_append hc v (lineText t))

/-- A text as a label has it. -/
theorem quotes_escapeLabel (t : List Char) :
    Quotes (Lone binding t) (escapeLabel t) (lineText t) :=
  .of_value? readQuoted_escapeLabel fun _ h => (lone_of_value?_escapeLabel (k := 0) h).2

theorem mem_toString_nat {n : Nat} (h : c ∈ (toString n).toList) : c.isDigit = true := by
  rw [Nat.toString_eq_repr, Nat.toList_repr] at h
  exact Nat.isDigit_of_mem_toDigits (by decide) (by decide) h

theorem mem_toString_int {i : Int} (h : c ∈ (toString i).toList) : c = '-' ∨ c.isDigit = true := by
  rw [Int.toString_eq_repr, Int.repr_eq_if] at h
  split at h
  · exact .inr (mem_toString_nat h)
  · rw [String.toList_append, List.mem_append] at h
    rcases h with h | h
    · exact .inl (List.mem_singleton.mp h)
    · exact .inr (mem_toString_nat h)

theorem eq_of_toString_nat {n k : Nat} (h : toString n = toString k) : n = k := by
  have hread : ∀ i : Nat, Nat.ofDigitChars 10 (toString i).toList 0 = i := by
    intro i
    rw [Nat.toString_eq_repr, Nat.toList_repr, Nat.ofDigitChars_ten_toDigits]
  rw [← hread n, h, hread]

/-- Numbers are told apart by their decimal texts. -/
theorem eq_of_toString_int {i j : Int} (h : toString i = toString j) : i = j := by
  have hsign : ∀ n k : Nat, toString n ≠ "-" ++ toString k := by
    intro n k h
    have hminus : '-' ∈ (toString n).toList := by
      rw [h, String.toList_append]
      exact List.mem_cons_self
    exact absurd (mem_toString_nat hminus) (by decide)
  rw [Int.toString_eq_repr, Int.toString_eq_repr, Int.repr_eq_if, Int.repr_eq_if] at h
  split at h <;> split at h
  · have hnat := eq_of_toString_nat h
    omega
  · exact absurd h (hsign _ _)
  · exact absurd h.symm (hsign _ _)
  · have hnat := eq_of_toString_nat ((String.append_right_inj "-").mp h)
    omega

theorem plain_toString (i : Int) : Plain (toString i).toList := by
  intro c hc
  constructor
  · rintro rfl
    exact absurd (mem_toString_int hc) (by decide)
  · rintro rfl
    exact absurd (mem_toString_int hc) (by decide)

/-- What the label of a node says: its index and its text. -/
def nodeString (g : Graph) (n : Node) : List Char :=
  (toString (g.method.index n) ++ ": ").toList ++ lineText (g.method.nodeText n).toList

theorem plain_index (g : Graph) (n : Node) :
    Plain (toString (g.method.index n) ++ ": ").toList := by
  rw [String.toList_append]
  exact (plain_toString _).append (by decide)

theorem quotes_nodeLabel (g : Graph) (n : Node) :
    Quotes (Lone binding (g.method.nodeText n).toList) (g.nodeLabel n).toList (g.nodeString n) := by
  rw [nodeLabel, String.toList_append, String.toList_ofList, nodeString]
  exact (quotes_escapeLabel _).append_left (g.plain_index n)

theorem quotes_edgeLabel (e : Edge) : Quotes True (edgeLabel e).toList (edgeLabel e).toList := by
  have hname : ∀ k : EdgeKind, Plain k.name.toList := by
    intro k
    cases k <;> decide
  refine Plain.quotes ?_
  rw [edgeLabel, String.toList_append]
  refine (hname e.kind).append ?_
  cases e.case? with
  | none => exact nofun
  | some i =>
    rw [Option.map_some, Option.getD_some, String.toList_append]
    exact Plain.append (by decide) (plain_toString i)

theorem not_mem_nodeName (g : Graph) (n : Node) : '"' ∉ (g.nodeName n).toList := by
  intro h
  rw [nodeName, String.toList_append, List.mem_append] at h
  rcases h with h | h
  · exact absurd h (by decide)
  · exact absurd (mem_toString_nat h) (by decide)

/-- The colours that the node of the entry and that of the exit are filled with. -/
def colours : Node → List (List Char)
  | .entry => ["#ccffcc".toList]
  | .exit => ["#ffcccc".toList]
  | _ => []

theorem spells_nodeStyle (n : Node) : Spells True (colours n) (nodeStyle n).toList := by
  have hfilled : ∀ colour : String, Plain colour.toList →
      Spells True [colour.toList]
        (", style=filled, fillcolor=".toList ++ ('"' :: colour.toList ++ ['"'])) :=
    fun colour h => (Spells.quoted h.quotes).append_left (by decide)
  cases n with
  | entry => exact hfilled "#ccffcc" (by decide)
  | exit => exact hfilled "#ffcccc" (by decide)
  | stmt | stray => exact .of_not_mem List.not_mem_nil

theorem spells_dotNode (g : Graph) (n : Node) :
    Spells (Lone binding (g.method.nodeText n).toList) (g.nodeString n :: colours n)
      (g.dotNode n).toList := by
  have hparts : (g.dotNode n).toList = ("  " ++ g.nodeName n ++ " [label=").toList ++
      (('"' :: (g.nodeLabel n).toList ++ ['"']) ++ ((nodeStyle n).toList ++ "];".toList)) := by
    simp [dotNode]
  have hfront : '"' ∉ ("  " ++ g.nodeName n ++ " [label=").toList := by
    simp [g.not_mem_nodeName]
  have hstyle : Spells True (colours n) ((nodeStyle n).toList ++ "];".toList) :=
    (spells_nodeStyle n).append_right (by decide)
  rw [hparts]
  exact (((Spells.quoted (g.quotes_nodeLabel n)).append hstyle).append_left hfront).congr
    (and_iff_left trivial)

theorem spells_dotEdge (g : Graph) (e : Edge) :
    Spells True [(edgeLabel e).toList] (g.dotEdge e).toList := by
  have hparts : (g.dotEdge e).toList =
      ("  " ++ g.nodeName e.source ++ " -> " ++ g.nodeName e.target ++ " [label=").toList ++
        (('"' :: (edgeLabel e).toList ++ ['"']) ++ ((edgeStyle e.kind).toList ++ "];".toList)) := by
    simp [dotEdge]
  have hfront : '"' ∉
      ("  " ++ g.nodeName e.source ++ " -> " ++ g.nodeName e.target ++ " [label=").toList := by
    simp [g.not_mem_nodeName]
  have hstyle : '"' ∉ (edgeStyle e.kind).toList ++ "];".toList := by
    cases e.kind <;> decide
  rw [hparts]
  exact ((Spells.quoted (quotes_edgeLabel e)).append_right hstyle).append_left hfront

def titleStrings (title : String) : List (List Char) :=
  if title.isEmpty then [] else [title.toList]

theorem spells_dotTitle (title : String) :
    Spells ('"' ∉ title.toList ∧ Lone ['\\'] title.toList) (titleStrings title)
      ((dotTitle title).flatMap fun l => l.toList ++ ['\n']) := by
  rw [dotTitle, titleStrings]
  by_cases htitle : title.isEmpty
  · rw [if_pos htitle, if_pos htitle]
    rw [String.isEmpty_iff.mp htitle]
    exact (Spells.of_not_mem List.not_mem_nil).congr
      (iff_of_true trivial ⟨List.not_mem_nil, lone_nil⟩)
  · rw [if_neg htitle, if_neg htitle, List.flatMap_singleton]
    have hparts : ("  label=\"" ++ title ++ "\";").toList ++ ['\n'] = "  label=".toList ++
        (('"' :: title.toList ++ ['"']) ++ [';', '\n']) := by
      simp
    rw [hparts]
    exact ((Spells.quoted (quotes_self _)).append_right (by decide)).append_left (by decide)

theorem toList_intercalate_concat (ls : List String) (l : String) :
    ("\n".intercalate (ls ++ [l])).toList =
      (ls.flatMap fun l => l.toList ++ ['\n']) ++ l.toList := by
  induction ls with
  | nil => simp
  | cons k ls ih =>
    rw [List.cons_append, String.intercalate_cons_of_ne_nil (by simp), String.toList_append,
      String.toList_append, ih]
    simp

/-- The texts of all strings of a graph, from left to right. -/
def strings (g : Graph) (title : String) : List (List Char) :=
  titleStrings title ++ (g.nodes.flatMap fun n => g.nodeString n :: colours n) ++
    g.edges.map fun e => (edgeLabel e).toList

theorem spells_toDot (g : Graph) (title : String) :
    Spells (('"' ∉ title.toList ∧ Lone ['\\'] title.toList) ∧
      ∀ n ∈ g.nodes, Lone binding (g.method.nodeText n).toList) (g.strings title)
      (g.toDot title).toList := by
  have hbreak : '"' ∉ ['\n'] := by decide
  have hopening : '"' ∉ "digraph CFG \x7b".toList ++ ['\n'] := by decide
  have hshape : '"' ∉
      "  node [shape=box, fontname=monospace, fontsize=10];".toList ++ ['\n'] := by decide
  have hclosing : '"' ∉ "\x7d".toList := by decide
  have hnodes := Spells.flatMap fun n (_ : n ∈ g.nodes) => (g.spells_dotNode n).append_right hbreak
  have hedges := Spells.flatMap fun e (_ : e ∈ g.edges) => (g.spells_dotEdge e).append_right hbreak
  rw [← List.map_eq_flatMap] at hedges
  rw [toDot, toList_intercalate_concat, List.flatMap_append, List.flatMap_append,
    List.flatMap_append, List.flatMap_append, List.flatMap_map, List.flatMap_map,
    List.flatMap_singleton, List.flatMap_singleton]
  have hhead := ((spells_dotTitle title).append_left hopening).append_right hshape
  refine (((hhead.append hnodes).append hedges).append_right hclosing).congr ?_
  exact and_iff_left fun _ _ => trivial

/-- The index of a node can be told from what its label says. -/
theorem index_eq_of_append {i j : Int}
    (h : (toString i ++ ": ").toList ++ x = (toString j ++ ": ").toList ++ y) : i = j := by
  have hdigits : ∀ (i : Int) (x : List Char),
      ((toString i ++ ": ").toList ++ x).takeWhile (· ≠ ':') = (toString i).toList := by
    intro i x
    rw [String.toList_append, List.append_assoc, List.takeWhile_append_of_pos]
    · exact List.append_nil _
    · intro c hc
      refine decide_eq_true fun hcolon => ?_
      subst hcolon
      exact absurd (mem_toString_int hc) (by decide)
  have htext := (hdigits i x).symm.trans ((congrArg _ h).trans (hdigits j y))
  exact eq_of_toString_int (String.toList_inj.mp htext)

theorem eq_of_index_eq {n n' : Node} (hn : n ∈ g.nodes) (hn' : n' ∈ g.nodes)
    (h : g.method.index n = g.method.index n') : n = n' := by
  rw [nodes, Method.mem_nodes] at hn hn'
  cases n <;> cases n' <;> simp_all [Method.index, Method.hasNode] <;> omega

/-- Whatever comes behind the labels of two nodes, they are not read as the same text. -/
theorem label_ne {n n' : Node} (hn : n ∈ g.nodes) (hn' : n' ∈ g.nodes) (hne : n ≠ n')
    {rest rest' : List Char} {p p' : List Char × List Char}
    (hp : readQuoted ((g.nodeLabel n).toList ++ rest) = some p)
    (hp' : readQuoted ((g.nodeLabel n').toList ++ rest') = some p') : p.1 ≠ p'.1 := by
  have hindex : ∀ n rest p, readQuoted ((g.nodeLabel n).toList ++ rest) = some p →
      ∃ x, p.1 = (toString (g.method.index n) ++ ": ").toList ++ x := by
    intro n rest p hp
    rw [nodeLabel, String.toList_append, List.append_assoc,
      (g.plain_index n).readQuoted_append] at hp
    obtain ⟨q, -, rfl⟩ := Option.map_eq_some_iff.mp hp
    exact ⟨q.1, rfl⟩
  obtain ⟨x, hx⟩ := hindex n rest p hp
  obtain ⟨y, hy⟩ := hindex n' rest' p' hp'
  intro heq
  rw [hx, hy] at heq
  exact hne (eq_of_index_eq hn hn' (index_eq_of_append heq))

/-- All strings of a graph are read back if and only if the title has no quote and lone backslashes,
and the texts of all nodes have lone backslashes. Each of the literals by itself is read back, and
ends at its closing quote, exactly if its text is such a text. The labels of two nodes are never
read as the same text. -/
theorem toDot_strings (g : Graph) (title : String) :
    (literals (g.toDot title).toList = some (g.strings title) ↔
      ('"' ∉ title.toList ∧ Lone ['\\'] title.toList) ∧
        ∀ n ∈ g.nodes, Lone ['\\', '"', '\n'] (g.method.nodeText n).toList) ∧
    (∀ rest rest', readQuoted (title.toList ++ '"' :: rest) = some (title.toList, rest') ↔
      ('"' ∉ title.toList ∧ Lone ['\\'] title.toList) ∧ rest' = rest) ∧
    (∀ n rest rest', readQuoted ((g.nodeLabel n).toList ++ '"' :: rest) =
        some (g.nodeString n, rest') ↔
      Lone ['\\', '"', '\n'] (g.method.nodeText n).toList ∧ rest' = rest) ∧
    ∀ n ∈ g.nodes, ∀ n' ∈ g.nodes, n ≠ n' → ∀ rest rest' p p',
      readQuoted ((g.nodeLabel n).toList ++ rest) = some p →
      readQuoted ((g.nodeLabel n').toList ++ rest') = some p' → p.1 ≠ p'.1 := by
  refine ⟨(g.spells_toDot title).literals_eq_some_iff, quotes_self title.toList, ?_, ?_⟩
  · exact g.quotes_nodeLabel
  · exact fun n hn n' hn' hne rest rest' p p' => label_ne hn hn' hne

/-- A method whose only statement ends in a backslash. -/
def trailing : Method where
  name := "say \"hi\""
  file := "trailing.ir"
  params := []
  body := [⟨1, .nop "a\\"⟩]
  targets_lt := by decide

/-- The label takes its closing quote with it, and the title ends at the first of its quotes. -/
theorem trailing_misread :
    readQuoted (((empty trailing).nodeLabel (.stmt 0)).toList ++ "\"];\n  N2 [label=\"".toList) =
      some ("0: a\"];\n  N2 [label=".toList, []) ∧
    (empty trailing).nodeString (.stmt 0) = "0: a\\".toList ∧
    readQuoted (trailing.name.toList ++ "\";".toList) = some ("say ".toList, "hi\"\";".toList) ∧
    literals ((empty trailing).toDot "").toList ≠ some ((empty trailing).strings "") ∧
    literals ((empty trailing).toDot trailing.name).toList ≠
      some ((empty trailing).strings trailing.name) := by
  refine ⟨by decide +kernel, by decide +kernel, by decide +kernel, fun h => ?_, fun h => ?_⟩
  · obtain ⟨-, hnodes⟩ := ((empty trailing).spells_toDot "").literals_eq_some_iff.mp h
    obtain ⟨c, hc, -⟩ := hnodes (.stmt 0) (by decide) [] ⟨['a'], rfl⟩
    cases hc
  · obtain ⟨⟨hquote, -⟩, -⟩ :=
      ((empty trailing).spells_toDot trailing.name).literals_eq_some_iff.mp h
    exact hquote (by decide)

end Graph

end FlowLint
