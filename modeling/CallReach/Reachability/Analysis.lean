import CallReach.Model.Edit
import CallReach.Reachability.Closure
import CallReach.Reachability.Result
import CallReach.Reachability.Workspace

/-!
# Reachability queries

An `Analysis` answers queries about one program.  It finds direct callees by
scanning call sites or by walking a call graph, which it builds on demand and
again whenever the program was edited since.  A query first walks the direct
calls from the entry and then closes the set under indirect calls.
-/

namespace CallReach

/-! ## Entries and faults -/

/-- Where a query starts. -/
inductive Entry where
  | named (name : Text.Wide)
  | function (f : FunctionId)
deriving DecidableEq, Repr

/-- Why an entry cannot be used. -/
inductive EntryFault where
  | notFound
  | notMember
  | declaration
deriving DecidableEq, Repr

/-- The wording of the fault of an entry. -/
def EntryFault.reason : EntryFault → String
  | notFound => "not found"
  | notMember => "not part of the program"
  | declaration => "declaration without a body"

/-- Why a query has no result. -/
inductive QueryFault where
  /-- The call graph belongs to another program. -/
  | foreignGraph
  | missingEntry (name : Text.Wide) (fault : EntryFault)
  /-- A reachable function has a malformed call site; the functions found
  before come with it. -/
  | malformed (bad : MalformedSite) (found : FunctionSet)
deriving DecidableEq

/-- The wording of a fault. -/
def QueryFault.message (m : Model) : QueryFault → String
  | foreignGraph => ModelFault.foreignGraph.message m
  | missingEntry name fault => "No function " ++ name.shown ++ " (" ++ fault.reason ++ ")"
  | malformed bad _ => bad.message m

/-- The function of a name; no function has a torn one. -/
def Model.findWide? (m : Model) (p : ProgramId) : Text.Wide → Option FunctionId
  | .whole name => m.find? p name
  | .torn _ => none

@[simp] theorem Model.findWide?_whole (m : Model) (p : ProgramId) (name : String) :
    m.findWide? p (.whole name) = m.find? p name := rfl

/-- The function that an entry stands for: a defined function of the
program. -/
def Entry.resolve (m : Model) (p : ProgramId) (entry : Entry) : Except QueryFault FunctionId := do
  let f ← match entry with
    | .named name =>
        match m.findWide? p name with
        | some f => .ok f
        | none => .error (.missingEntry name .notFound)
    | .function f =>
        if m.owns p f then .ok f else .error (.missingEntry (m.name f) .notMember)
  if m.isDeclaration f then .error (.missingEntry (m.name f) .declaration) else .ok f

/-! ## The query itself -/

/-- The functions reachable over direct calls. -/
def directlyReachable (m : Model) (scope : Scope) (entry : FunctionId) : FunctionSet :=
  walk m scope.callees [] [entry]

/-! ## Analyses -/

/-- Queries about one program, with the call graph in use. -/
structure Analysis where
  program : ProgramId
  graph : Option GraphId
  usesGraph : Bool
  callbacks : Bool
deriving DecidableEq, Repr

/-- What an operation on an analysis does: the workspace and the analysis after
it, the lines of the log and the value. -/
structure Answer (α : Type) where
  workspace : Workspace
  analysis : Analysis
  log : Log
  value : α

namespace Analysis

/-- An analysis of a program, which refuses the graph of another program. -/
def create (w : Workspace) (p : ProgramId) (graph : Option GraphId)
    (usesGraph callbacks : Bool) : Except QueryFault Analysis :=
  match graph with
  | some g =>
      if (w.graph g).program = p then .ok ⟨p, graph, usesGraph, callbacks⟩
      else .error .foreignGraph
  | none => .ok ⟨p, none, usesGraph, callbacks⟩

/-- Makes sure that the graph in use is there and not stale, and returns it.
An analysis that scans call sites uses none. -/
def refresh (a : Analysis) (w : Workspace) : Answer (Option GraphId) :=
  if !a.usesGraph then ⟨w, a, [], none⟩
  else
    match a.graph with
    | none =>
        let (w, g) := w.buildGraph a.program
        ⟨w, { a with graph := some g }, [], some g⟩
    | some g =>
        if (w.graph g).isOutdated w.model then
          let line : Log.Line :=
            ⟨.info, .reachability,
              "program " ++ (w.model.program a.program).name ++ " changed; rebuilding call graph"⟩
          let (w, g) := w.buildGraph a.program
          ⟨w, { a with graph := some g }, [line], some g⟩
        else ⟨w, a, [], some g⟩

end Analysis

/-- The direct callees of a function in a call graph; none if the function has
no node of its own. -/
def CallGraph.functionCallees (g : CallGraph) (m : Model) (f : FunctionId) : List FunctionId :=
  match g.nodeOf? m f with
  | some n => (g.staticSuccessors n).filterMap fun callee => (g.node callee).function
  | none => []

/-- The direct callees as a query sees them: in a graph, or by scanning. -/
def Workspace.callees (w : Workspace) (graph : Option GraphId) (f : FunctionId) :
    List FunctionId :=
  match graph with
  | some g => (w.graph g).functionCallees w.model f
  | none => w.model.staticCallees f

namespace Analysis

/-- Asks for everything that is reachable from an entry. -/
def query (a : Analysis) (w : Workspace) (entry : Entry) : Answer (Except QueryFault Result) :=
  match entry.resolve w.model a.program with
  | .error fault => ⟨w, a, [], .error fault⟩
  | .ok f =>
      let m := w.model
      let index := TypeIndex.ofProgram m a.program
      let fresh := a.refresh w
      let scope : Scope := ⟨fresh.workspace.callees fresh.value, index, a.callbacks⟩
      let direct := directlyReachable m scope f
      let outcome := Closure.ofReachable m scope direct
      let indexLine : Log.Line :=
        ⟨.debug, .reachability, "signature index: " ++ index.describe⟩
      let log := indexLine :: (fresh.log ++ outcome.log m index)
      match outcome.malformed with
      | some bad =>
          ⟨fresh.workspace, fresh.analysis, log, .error (.malformed bad outcome.reachable)⟩
      | none =>
          let line : Log.Line :=
            ⟨.info, .reachability,
              toString outcome.reachable.length ++ " function(s) reachable from " ++ m.name f ++
                " (" ++ toString direct.length ++ " directly)"⟩
          ⟨fresh.workspace, fresh.analysis, log ++ [line],
            .ok ⟨a.program, f, outcome.reachable, direct, none⟩⟩

/-- Asks for what is reachable from an entry over direct calls alone. -/
def directlyReached (a : Analysis) (w : Workspace) (entry : Entry) :
    Answer (Except QueryFault FunctionSet) :=
  match entry.resolve w.model a.program with
  | .error fault => ⟨w, a, [], .error fault⟩
  | .ok f =>
      let fresh := a.refresh w
      let scope : Scope := ⟨fresh.workspace.callees fresh.value, ⟨[]⟩, a.callbacks⟩
      { fresh with value := .ok (directlyReachable w.model scope f) }

end Analysis

/-- The entry of a query that names none. -/
def defaultEntry : String := "main"

end CallReach
