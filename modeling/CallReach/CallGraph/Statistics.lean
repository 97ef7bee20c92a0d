import CallReach.CallGraph.Components

/-!
# Figures of a call graph

The numbers of nodes and edges by kind, of components with more than one node,
and of nodes that call themselves.
-/

namespace CallReach.CallGraph

/-- The figures of a call graph. -/
structure Statistics where
  functions : Nat
  externalFunctions : Nat
  totalEdges : Nat
  directCalls : Nat
  functionPointerCalls : Nat
  callbackEdges : Nat
  unresolvedCalls : Nat
  recursiveComponents : Nat
  selfRecursiveFunctions : Nat
deriving DecidableEq, Repr

/-- The number of nodes of a kind. -/
def countNodes (g : CallGraph) (kind : NodeRole) : Nat :=
  g.members.countP fun n => (g.node n).kind = kind

/-- The number of edges with a resolution. -/
def edgeCount (g : CallGraph) (resolution : Resolution) : Nat :=
  g.edges.toList.countP (·.resolution = resolution)

/-- The figures of a call graph. -/
def statistics (g : CallGraph) : Statistics where
  functions := g.countNodes .function
  externalFunctions := g.countNodes .external
  totalEdges := g.edges.size
  directCalls := g.edgeCount .direct
  functionPointerCalls := g.edgeCount .functionPointer
  callbackEdges := g.edgeCount .callback
  unresolvedCalls := g.edgeCount .unresolved
  recursiveComponents := g.components.countP fun component => 1 < component.length
  selfRecursiveFunctions := g.members.countP g.isRecursive

/-- The figures with their names, in the order of reports. -/
def Statistics.entries (s : Statistics) : List (String × Nat) :=
  [("functions", s.functions),
   ("external_functions", s.externalFunctions),
   ("total_edges", s.totalEdges),
   ("direct_calls", s.directCalls),
   ("function_pointer_calls", s.functionPointerCalls),
   ("callback_edges", s.callbackEdges),
   ("unresolved_calls", s.unresolvedCalls),
   ("recursive_sccs", s.recursiveComponents),
   ("self_recursive_functions", s.selfRecursiveFunctions)]

end CallReach.CallGraph
