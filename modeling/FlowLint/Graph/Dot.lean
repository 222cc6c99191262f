import FlowLint.Graph.Basic

/-! # Graphs in the DOT language -/
namespace FlowLint.Graph

/-- A text inside a DOT string: quotes are escaped and line breaks written as such. -/
def escapeLabel (s : List Char) : List Char :=
  s.flatMap fun c =>
    if c = '"' then ['\\', '"'] else if c = '\n' then ['\\', 'n'] else [c]

variable (g : Graph)

def nodeStyle : Node → String
  | .entry => ", style=filled, fillcolor=\"#ccffcc\""
  | .exit => ", style=filled, fillcolor=\"#ffcccc\""
  | _ => ""

def nodeName (n : Node) : String := "N" ++ toString (g.method.place n)

def nodeLabel (n : Node) : String :=
  toString (g.method.index n) ++ ": " ++
    String.ofList (escapeLabel (g.method.nodeText n).toList)

def dotNode (n : Node) : String :=
  "  " ++ g.nodeName n ++ " [label=\"" ++ g.nodeLabel n ++ "\"" ++ nodeStyle n ++ "];"

def edgeStyle : EdgeKind → String
  | .ifTrue => ", color=green, fontcolor=green"
  | .ifFalse => ", color=red, fontcolor=red"
  | .switchDefault => ", style=dashed"
  | _ => ""

def edgeLabel (e : Edge) : String :=
  e.kind.name ++ ((e.case?.map fun n => ": " ++ toString n).getD "")

def dotEdge (e : Edge) : String :=
  "  " ++ g.nodeName e.source ++ " -> " ++ g.nodeName e.target ++ " [label=\"" ++ edgeLabel e ++
    "\"" ++ edgeStyle e.kind ++ "];"

def dotTitle (title : String) : List String :=
  if title.isEmpty then [] else ["  label=\"" ++ title ++ "\";"]

/-- The graph in the DOT language, one item a line. -/
def toDot (title : String) : String :=
  "\n".intercalate (["digraph CFG \x7b"] ++ dotTitle title ++
    ["  node [shape=box, fontname=monospace, fontsize=10];"] ++ g.nodes.map g.dotNode ++
    g.edges.map g.dotEdge ++ ["\x7d"])

end FlowLint.Graph
