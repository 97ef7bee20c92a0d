import CallReach.Model.FunctionSet

/-!
# Call graphs

The call graph of one program at one revision.  A node stands for a function,
and one more node stands for the unknown target of an unresolved call.  Edges
are kept in the order in which they were added; the edges of a node are those
of the graph that start or end there.

A node has a text id, and the graph's table holds at most one node under each
id.  A node that is taken out of the table keeps its edges, and a later node of
the same id is another node.
-/

namespace CallReach

/-- A node of a call graph. -/
structure NodeId where
  index : Nat
deriving DecidableEq, Repr, Inhabited

/-- What a node stands for. -/
inductive NodeRole where
  /-- A function with a body. -/
  | function
  /-- A declaration. -/
  | external
  /-- The target of calls that nothing answers. -/
  | unknown
deriving DecidableEq, Repr

/-- The word for a kind of node. -/
def NodeRole.word : NodeRole → String
  | function => "function"
  | external => "external"
  | unknown => "unknown"

/-- How the target of a call was found. -/
inductive Resolution where
  /-- The callee is statically known. -/
  | direct
  /-- The target of an indirect call, by its type. -/
  | functionPointer
  /-- A function that is passed as an argument. -/
  | callback
  /-- No defined function answers an indirect call. -/
  | unresolved
deriving DecidableEq, Repr

/-- The word for a resolution. -/
def Resolution.word : Resolution → String
  | direct => "direct"
  | functionPointer => "function-pointer"
  | callback => "callback"
  | unresolved => "unresolved"

/-- What is known about a node. -/
structure Node where
  id : String
  kind : NodeRole
  /-- The function that the node stands for. -/
  function : Option FunctionId
deriving DecidableEq, Repr

/-- A call from one node to another. -/
structure Edge where
  caller : NodeId
  callee : NodeId
  site : Option SiteId
  resolution : Resolution
deriving DecidableEq, Repr

/-- The call graph of a program. -/
structure CallGraph where
  program : ProgramId
  /-- The revision of the program at the time of building. -/
  revision : Nat
  /-- Every node that was ever made. -/
  nodes : Array Node
  /-- The nodes of the graph by id, in the order of their making. -/
  table : List (String × NodeId)
  edges : Array Edge

namespace CallGraph

/-- The id of the node for unknown targets. -/
def unknownId : String := "__UNKNOWN__"

/-- The node for unknown targets, which every graph starts with. -/
def unknown : NodeId := ⟨0⟩

/-- The graph of a program with no node but the unknown one. -/
def start (m : Model) (p : ProgramId) : CallGraph where
  program := p
  revision := (m.program p).revision
  nodes := #[⟨unknownId, .unknown, none⟩]
  table := [(unknownId, unknown)]
  edges := #[]

/-! ## Nodes -/

/-- What is known about a node of the graph. -/
def node (g : CallGraph) (n : NodeId) : Node :=
  g.nodes.getD n.index ⟨"", .unknown, none⟩

/-- The id of a node. -/
def idOf (g : CallGraph) (n : NodeId) : String :=
  (g.node n).id

/-- The node under an id. -/
def find? (g : CallGraph) (id : String) : Option NodeId :=
  g.table.lookup id

/-- The nodes of the table, in order. -/
def members (g : CallGraph) : List NodeId :=
  g.table.map (·.2)

/-- The node that stands for a very function. -/
def nodeOf? (g : CallGraph) (m : Model) (f : FunctionId) : Option NodeId :=
  (g.find? (m.name f)).filter fun n => (g.node n).function = some f

/-- The node under the name of a function, which is made if there is none. -/
def ensureNode (g : CallGraph) (m : Model) (f : FunctionId) : CallGraph × NodeId :=
  match g.find? (m.name f) with
  | some n => (g, n)
  | none =>
      let kind := if m.isDeclaration f then .external else .function
      let n : NodeId := ⟨g.nodes.size⟩
      ({ g with
          nodes := g.nodes.push ⟨m.name f, kind, some f⟩
          table := g.table ++ [(m.name f, n)] }, n)

/-- Takes a node out of the table; its edges stay. -/
def erase (g : CallGraph) (id : String) : CallGraph :=
  { g with table := g.table.filter fun entry => entry.1 ≠ id }

/-! ## Edges -/

/-- Adds an edge. -/
def connect (g : CallGraph) (edge : Edge) : CallGraph :=
  { g with edges := g.edges.push edge }

/-- The edges that start at a node. -/
def outEdges (g : CallGraph) (n : NodeId) : List Edge :=
  g.edges.toList.filter (·.caller = n)

/-- The edges that end at a node. -/
def inEdges (g : CallGraph) (n : NodeId) : List Edge :=
  g.edges.toList.filter (·.callee = n)

/-- The nodes that a node calls. -/
def callees (g : CallGraph) (n : NodeId) : List NodeId :=
  (g.outEdges n).map (·.callee)

/-- The nodes that call a node. -/
def callers (g : CallGraph) (n : NodeId) : List NodeId :=
  (g.inEdges n).map (·.caller)

/-- The nodes that a node calls statically. -/
def staticSuccessors (g : CallGraph) (n : NodeId) : List NodeId :=
  ((g.outEdges n).filter (·.resolution = .direct)).map (·.callee)

/-- Whether a node calls itself. -/
def isRecursive (g : CallGraph) (n : NodeId) : Bool :=
  (g.callees n).contains n

/-- Whether the program was edited since the graph was built. -/
def isOutdated (g : CallGraph) (m : Model) : Bool :=
  g.revision ≠ (m.program g.program).revision

/-! ## Descriptions -/

/-- The name of a node: that of its function, or its id in angle brackets. -/
def nodeName (g : CallGraph) (m : Model) (n : NodeId) : String :=
  match (g.node n).function with
  | some f => m.name f
  | none => "<" ++ g.idOf n ++ ">"

/-- A node with its kind. -/
def describeNode (g : CallGraph) (m : Model) (n : NodeId) : String :=
  "CallGraphNode(" ++ Text.quoted (g.nodeName m n) ++ ", kind=" ++ (g.node n).kind.word ++ ")"

/-- An edge with its resolution. -/
def describeEdge (g : CallGraph) (m : Model) (edge : Edge) : String :=
  "CallGraphEdge(" ++ g.nodeName m edge.caller ++ " -> " ++ g.nodeName m edge.callee ++ ", " ++
    edge.resolution.word ++ ")"

/-- A graph with its numbers of nodes and edges. -/
def describe (g : CallGraph) : String :=
  "CallGraph(nodes=" ++ toString g.table.length ++ ", edges=" ++ toString g.edges.size ++ ")"

end CallGraph

end CallReach
