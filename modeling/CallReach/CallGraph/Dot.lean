import CallReach.CallGraph.Basic

/-!
# DOT text of a call graph

One line for each node and each edge.  Defined functions are blue, declarations
yellow, the unknown node red, and highlighted functions green.  The unknown
node is shown only if something ends there.  In the label of a node a double
quote is written with a backslash; ids and the title are written as they are.
-/

namespace CallReach

/-- The drawing of a kind of node. -/
def NodeRole.dotStyle : NodeRole → String
  | function => "style=filled, fillcolor=\"#ddeeff\""
  | external => "style=filled, fillcolor=\"#fff3cd\", shape=ellipse"
  | unknown => "style=filled, fillcolor=\"#ffcccc\", shape=diamond"

/-- The drawing of an edge, after its label. -/
def Resolution.dotStyle : Resolution → String
  | direct => ""
  | functionPointer => ", style=dashed, color=blue"
  | callback => ", style=dashed, color=darkgreen"
  | unresolved => ", style=dotted, color=red"

namespace CallGraph

/-- A text between double quotes, as it is. -/
def dotRaw (text : String) : String :=
  "\"" ++ text ++ "\""

/-- A text with a backslash before every double quote. -/
def dotEscape (text : String) : String :=
  String.ofList (text.toList.flatMap fun c => if c = '\x22' then ['\x5c', c] else [c])

/-- The drawing of a highlighted function. -/
def highlightStyle : String :=
  "style=filled, fillcolor=\"#ccffcc\""

/-- The line of a node. -/
def dotNode (g : CallGraph) (m : Model) (highlighted : List String) (n : NodeId) : String :=
  let id := g.idOf n
  let style :=
    if highlighted.contains id then highlightStyle else (g.node n).kind.dotStyle
  "  " ++ dotRaw id ++ " [label=" ++ dotRaw (dotEscape (g.nodeName m n)) ++ ", " ++ style ++ "];"

/-- The line of an edge. -/
def dotEdge (g : CallGraph) (edge : Edge) : String :=
  "  " ++ dotRaw (g.idOf edge.caller) ++ " -> " ++ dotRaw (g.idOf edge.callee) ++ " [label=" ++
    dotRaw edge.resolution.word ++ edge.resolution.dotStyle ++ "];"

/-- Whether a node is shown. -/
def isShown (g : CallGraph) (n : NodeId) : Bool :=
  (g.node n).kind ≠ .unknown || !(g.inEdges n).isEmpty

/-- The line of a title; an empty title has none. -/
def dotTitle (title : String) : List String :=
  if title.isEmpty then [] else ["  label=" ++ dotRaw title ++ ";"]

/-- The lines of a graph. -/
def dotLines (g : CallGraph) (m : Model) (title : String) (highlighted : List String) :
    List String :=
  ["digraph CallGraph \x7b", "  rankdir=TB;"] ++ dotTitle title ++
    ["  node [shape=box, fontname=\"Helvetica\", fontsize=10];"] ++
    (g.members.filter g.isShown).map (g.dotNode m highlighted) ++
    g.edges.toList.map g.dotEdge ++ ["\x7d"]

/-- The DOT text of a graph, with a title and the names of the functions to
highlight. -/
def dot (g : CallGraph) (m : Model) (title : String) (highlighted : List String) : String :=
  "\n".intercalate (g.dotLines m title highlighted)

end CallGraph

end CallReach
