import CallReach.Options.Basic

/-!
# The pass

Runs one query with given options for a host that goes on when the query
fails: a failure is logged and returned as a value.  A `Pass` is what the host
keeps between runs, and remembers the failure of the last one.
-/

namespace CallReach

/-- A pass in use: its options, and the failure of its last run. -/
structure Pass where
  options : Options
  lastError : Option QueryFault

namespace Pass

/-- The name of the pass. -/
def name : String := "reachables"

/-- What the pass does. -/
def description : String := "Find main reachable functions"

/-- The lines of setting the pass up. -/
def setupLog (options : Options) : Log :=
  options.warnings.map (Options.warningLine .passes)

/-- A line of the pass for readers who look for details. -/
def detail (text : String) : Log.Line :=
  ⟨.debug, .passes, text⟩

/-- The line of a failure. -/
def failureLine (m : Model) (fault : QueryFault) : Log.Line :=
  let text := match fault with
    | .malformed _ found =>
        fault.message m ++ "; " ++ toString found.length ++
          " function(s) found before the failure"
    | _ => fault.message m
  ⟨.error, .passes, text⟩

/-- The names of a result, reachable ones first, one on each line. -/
def nameLines (m : Model) (r : Result) : List String :=
  ["Functions reachable from " ++ m.name r.entry ++ " are"] ++
    (m.sorted r.reachable).map (fun f => "+++" ++ m.name f) ++
    ["Non reachable functions"] ++
    (r.unreachable m).map (fun f => "---" ++ m.name f)

/-- The detailed listing of a result, with the result that keeps its figures. -/
def listing (m : Model) (r : Result) : Result × Log :=
  let (figures, kept, log) := r.figures m
  (kept,
    (nameLines m r).map detail ++ log ++
      [detail ("statistics: " ++ figures.toJson.literal)])

/-- What a run does: the workspace after it, the lines of the log, and the
result or the failure. -/
structure Outcome where
  workspace : Workspace
  log : Log
  result : Except QueryFault Result

/-- Runs the query of the options on a program, with a call graph if one is
given.  The listing is made only when it is asked for. -/
def run (options : Options) (w : Workspace) (p : ProgramId) (graph : Option GraphId)
    (detailed : Bool) : Outcome :=
  match Analysis.create w p graph options.usesGraph options.callbacks with
  | .error fault => ⟨w, [failureLine w.model fault], .error fault⟩
  | .ok analysis =>
      let answer := analysis.query w (.named options.entry)
      match answer.value with
      | .error fault =>
          ⟨answer.workspace, answer.log ++ [failureLine w.model fault], .error fault⟩
      | .ok result =>
          if detailed then
            let (result, log) := listing w.model result
            ⟨answer.workspace, answer.log ++ log, .ok result⟩
          else ⟨answer.workspace, answer.log, .ok result⟩

/-! ## Passes in use -/

/-- A pass before its first run. -/
def create (options : Options) : Pass :=
  ⟨options, none⟩

/-- What a visit of the host does: the pass and the workspace after it, the
lines of the log, and the result if there is one. -/
structure Visit where
  pass : Pass
  workspace : Workspace
  log : Log
  result : Option Result

/-- Runs a pass on a program.  The failure of the run before is forgotten, and
a failure of this one is kept. -/
def visit (pass : Pass) (w : Workspace) (p : ProgramId) (graph : Option GraphId)
    (detailed : Bool) : Visit :=
  let cleared : Pass := { pass with lastError := none }
  let outcome := run pass.options w p graph detailed
  match outcome.result with
  | .ok result => ⟨cleared, outcome.workspace, outcome.log, some result⟩
  | .error fault =>
      ⟨{ cleared with lastError := some fault }, outcome.workspace, outcome.log, none⟩

end Pass

end CallReach
