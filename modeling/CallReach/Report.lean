import CallReach.Json.Printer
import CallReach.CallGraph.Dot
import CallReach.Reachability.Result

/-!
# Reports

A result as a listing, as JSON or as a DOT graph.  How a text is coloured is left
to a `Painter`; `Painter.terminal` uses the codes of a terminal.
-/

namespace CallReach

/-! ## Formats -/

/-- The formats of a report. -/
inductive ReportFormat where
  | text
  | json
  | dot
deriving DecidableEq, Repr

namespace ReportFormat

/-- The name of a format. -/
def name : ReportFormat → String
  | text => "text"
  | json => "json"
  | dot => "dot"

/-- All formats. -/
def all : List ReportFormat := [text, json, dot]

/-- The format of a name. -/
def ofName? (name : String) : Option ReportFormat :=
  all.find? (·.name = name)

/-- The format that a value names. -/
def ofJson? : Json → Option ReportFormat
  | .str (.whole name) => ofName? name
  | _ => none

end ReportFormat

/-- Why a value names no format. -/
inductive FormatFault where
  | unknown (value : Json)
  /-- A list or an object cannot be a name. -/
  | compound (kind : String)
deriving DecidableEq

/-- The wording of a fault. -/
def FormatFault.message : FormatFault → String
  | unknown value => "unknown report format " ++ value.literal
  | compound kind => "unhashable type: " ++ Text.quoted kind

/-- The format that a value names, or why it names none. -/
def ReportFormat.ofJson (value : Json) : Except FormatFault ReportFormat :=
  match ofJson? value with
  | some format => .ok format
  | none =>
      match value with
      | .arr _ => .error (.compound "list")
      | .obj _ => .error (.compound "dict")
      | value => .error (.unknown value)

/-! ## Colour -/

/-- What the stream of a report says about being a terminal. -/
inductive Stream where
  | terminal
  | other
  /-- It is closed, or cannot be asked. -/
  | unknown
deriving DecidableEq, Repr

/-- Whether a report is coloured: as asked for, else never when the environment
forbids colour, else on a terminal. -/
def usesColor (stream : Stream) (asked : Option Bool) (forbidden : Bool) : Bool :=
  match asked with
  | some answer => answer
  | none => !forbidden && stream = .terminal

/-- The colours of a listing. -/
inductive Hue where
  | green
  | red
deriving DecidableEq, Repr

/-- What makes a text a text in a colour. -/
abbrev Painter := Hue → String → String

/-- The code of a colour. -/
def Hue.code : Hue → String
  | green => "32"
  | red => "31"

/-- A text between the codes that switch a colour of a terminal on and off. -/
def Painter.terminal : Painter := fun hue text =>
  "\x1b[" ++ hue.code ++ "m" ++ text ++ "\x1b[0m"

/-- A text in a colour, if colour is used. -/
def paint (painter : Painter) (color : Bool) (hue : Hue) (text : String) : String :=
  if color then painter hue text else text

namespace Result

/-! ## The three formats -/

/-- The line of a reachable function; a mark tells those that are not reachable
over direct calls. -/
def reachableLine (m : Model) (r : Result) (painter : Painter) (color : Bool) (f : FunctionId) :
    String :=
  let note := if m.contains (r.onlyIndirect m) f then "  (indirect)" else ""
  paint painter color .green ("+++" ++ m.name f) ++ note

/-- The lines of the listing. -/
def listing (m : Model) (r : Result) (painter : Painter) (color : Bool) : List String :=
  ["Functions reachable from " ++ m.name r.entry ++ " are"] ++
    (m.sorted r.reachable).map (r.reachableLine m painter color) ++
    ["Non reachable functions"] ++
    (r.unreachable m).map fun f => paint painter color .red ("---" ++ m.name f)

/-- A report as text, with the result that keeps its figures and the lines of
making it. -/
structure Report where
  text : String
  result : Result
  log : Log

/-- The names of functions as a JSON array. -/
def nameArray (names : List String) : Json :=
  .arr (names.map fun name : String => .str name)

/-- The summary of a result as an object, made of its figures. -/
def summary (m : Model) (r : Result) (figures : Figures) : Json :=
  .obj
    [("program", .str (m.program r.program).name),
     ("entry", .str (m.name r.entry)),
     ("reachable", nameArray (m.names r.reachable)),
     ("unreachable", nameArray ((r.unreachable m).map m.name)),
     ("indirect_only", nameArray ((r.onlyIndirect m).map m.name)),
     ("counts", .obj
       [("defined", .int (m.defined r.program).length),
        ("reachable", .int r.reachable.length),
        ("direct", .int r.direct.length)]),
     ("statistics", figures.toJson)]

/-- The summary of a result, with the result that keeps its figures and the
lines of measuring. -/
def summarize (m : Model) (r : Result) : Json × Result × Log :=
  let (figures, r, log) := r.figures m
  (r.summary m figures, r, log)

/-- The annotated call graph in DOT, with the reachable functions
highlighted. -/
def dot (m : Model) (r : Result) : String × Log :=
  let annotated := CallGraph.buildAnnotated m r.program
  (annotated.graph.dot m ("reachable from " ++ m.name r.entry) (r.reachable.map m.name),
    annotated.log)

/-- The report of a result. -/
def render (m : Model) (r : Result) (painter : Painter) (format : ReportFormat) (color : Bool) :
    Report :=
  match format with
  | .text => ⟨"\n".intercalate (r.listing m painter color), r, []⟩
  | .json =>
      let (summary, r, log) := r.summarize m
      ⟨summary.pretty, r, log⟩
  | .dot =>
      let (text, log) := r.dot m
      ⟨text, r, log⟩

end Result

end CallReach
