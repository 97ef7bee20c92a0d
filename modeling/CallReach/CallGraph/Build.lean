import CallReach.CallGraph.Basic
import CallReach.Resolution

/-!
# Building and annotating call graphs

`CallGraph.build` makes a node for every function of a program and a direct
edge for every call with a static callee.  `CallGraph.annotate` adds the edges
that resolution finds: candidates of indirect calls, callbacks, and an edge to
the unknown node for an indirect call that nothing answers.
-/

namespace CallReach.CallGraph

/-! ## Direct edges -/

/-- Adds the direct edge of a call site, if it has a static callee. -/
def connectSite (m : Model) (caller : NodeId) (g : CallGraph) (entry : SiteId × CallSite) :
    CallGraph :=
  match entry.2.callee with
  | .function f =>
      let (g, callee) := g.ensureNode m f
      g.connect ⟨caller, callee, some entry.1, .direct⟩
  | _ => g

/-- Adds the direct edges of a function. -/
def connectFunction (m : Model) (g : CallGraph) (f : FunctionId) : CallGraph :=
  let (g, caller) := g.ensureNode m f
  (m.sites f).foldl (connectSite m caller) g

/-- The direct call graph of a program. -/
def build (m : Model) (p : ProgramId) : CallGraph :=
  let g := (m.members p).foldl (fun g f => (g.ensureNode m f).1) (start m p)
  (m.defined p).foldl (connectFunction m) g

/-! ## Edges found by resolution -/

/-- Adds edges from a node to functions, in the order of their names. -/
def connectAll (m : Model) (caller : NodeId) (site : SiteId) (resolution : Resolution)
    (targets : FunctionSet) (g : CallGraph) : CallGraph :=
  (m.sorted targets).foldl
    (fun g f =>
      let (g, callee) := g.ensureNode m f
      g.connect ⟨caller, callee, some site, resolution⟩)
    g

/-- Adds the edges of a well-formed call site. -/
def annotateSite (m : Model) (index : TypeIndex) (caller : NodeId) (id : SiteId)
    (site : CallSite) (g : CallGraph) : CallGraph :=
  let targets := site.pointerTargets index
  let g :=
    if site.isIndirect && targets.isEmpty then g.connect ⟨caller, unknown, some id, .unresolved⟩
    else g
  connectAll m caller id .callback (site.passedTargets m index)
    (connectAll m caller id .functionPointer targets g)

/-- What annotating does: the graph with the edges added so far, the lines of
the log, and the name of the function that had no node, where it stopped. -/
structure Annotated where
  graph : CallGraph
  log : Log
  missing : Option String

/-- Adds the edges of a list of call sites.  Malformed sites are left out, with
a warning; a caller without a node ends the work. -/
def annotateSites (m : Model) (index : TypeIndex) (g : CallGraph) :
    List (SiteId × CallSite) → Annotated
  | [] => ⟨g, [], none⟩
  | (id, site) :: rest =>
      match site.fault? with
      | some fault =>
          let line : Log.Line :=
            ⟨.warning, .resolution, MalformedSite.message m ⟨id, fault⟩ ++ "; not annotated"⟩
          let after := annotateSites m index g rest
          { after with log := line :: after.log }
      | none =>
          let lines := unansweredLine m index id site
          let name := m.name id.block.function
          match g.find? name with
          | none => ⟨g, lines, some name⟩
          | some caller =>
              let after := annotateSites m index (annotateSite m index caller id site g) rest
              { after with log := lines ++ after.log }

/-- Adds to a graph the edges that resolution finds in its program. -/
def annotate (m : Model) (index : TypeIndex) (g : CallGraph) : Annotated :=
  annotateSites m index g ((m.defined g.program).flatMap m.sites)

/-- The annotated call graph of a program as it stands. -/
def buildAnnotated (m : Model) (p : ProgramId) : Annotated :=
  annotate m (TypeIndex.ofProgram m p) (build m p)

end CallReach.CallGraph
