import CallReach.CallGraph.Build

/-!
# Workspaces

A model together with the call graphs that were built for its programs.  Graphs
have ids, because a graph may be annotated or edited while analyses use it.
-/

namespace CallReach

/-- The id of a call graph. -/
structure GraphId where
  index : Nat
deriving DecidableEq, Repr, Inhabited

/-- A model and its call graphs. -/
structure Workspace where
  model : Model
  graphs : Array CallGraph

namespace Workspace

/-- The workspace without programs, functions and graphs. -/
def empty : Workspace := ⟨.empty, #[]⟩

instance : Inhabited Workspace := ⟨empty⟩

/-- The graph with an id. -/
def graph (w : Workspace) (g : GraphId) : CallGraph :=
  w.graphs.getD g.index ⟨⟨0⟩, 0, #[], [], #[]⟩

/-- The workspace with one graph replaced. -/
def setGraph (w : Workspace) (g : GraphId) (graph : CallGraph) : Workspace :=
  { w with graphs := w.graphs.setIfInBounds g.index graph }

/-- Builds the call graph of a program. -/
def buildGraph (w : Workspace) (p : ProgramId) : Workspace × GraphId :=
  ({ w with graphs := w.graphs.push (CallGraph.build w.model p) }, ⟨w.graphs.size⟩)

/-- Adds to a graph the edges that resolution finds. -/
def annotateGraph (w : Workspace) (g : GraphId) (index : TypeIndex) :
    Workspace × CallGraph.Annotated :=
  let annotated := CallGraph.annotate w.model index (w.graph g)
  (w.setGraph g annotated.graph, annotated)

end Workspace

end CallReach
