import CallReach.CallGraph.Build
import CallReach.CallGraph.Statistics

/-!
# Results of a query

The functions reachable from an entry, and among them those reachable over
direct calls alone.  The views of a result look at the program as it stands,
except for the figures, which are kept once they were asked for.
-/

namespace CallReach

/-- The figures of a result: those of the annotated call graph, and the sizes
of the result. -/
structure Figures where
  graph : CallGraph.Statistics
  reachable : Nat
  direct : Nat
  onlyIndirect : Nat
  unreachable : Nat
deriving DecidableEq, Repr

/-- The figures with their names, in the order of reports. -/
def Figures.entries (figures : Figures) : List (String × Nat) :=
  figures.graph.entries ++
    [("reachable", figures.reachable), ("direct", figures.direct),
     ("indirect_only", figures.onlyIndirect), ("unreachable", figures.unreachable)]

/-- The figures as an object. -/
def Figures.toJson (figures : Figures) : Json :=
  .obj (figures.entries.map fun (name, count) => (name, .int count))

/-- The result of a query. -/
structure Result where
  program : ProgramId
  entry : FunctionId
  reachable : FunctionSet
  direct : FunctionSet
  /-- The figures, once they were asked for. -/
  kept : Option Figures

namespace Result

/-- The defined functions of the program that are not reachable. -/
def unreachable (m : Model) (r : Result) : List FunctionId :=
  (m.defined r.program).filter fun f => !m.contains r.reachable f

/-- The functions reachable only through indirect calls or callbacks, by
name. -/
def onlyIndirect (m : Model) (r : Result) : List FunctionId :=
  m.sorted (m.diff r.reachable r.direct)

/-- Whether a function of some name is reachable. -/
def containsName (m : Model) (r : Result) (name : String) : Bool :=
  r.reachable.any fun f => m.name f = name

/-- The figures of a result for the program as it stands. -/
def measure (m : Model) (r : Result) : Figures × Log :=
  let annotated := CallGraph.buildAnnotated m r.program
  ({ graph := annotated.graph.statistics
     reachable := r.reachable.length
     direct := r.direct.length
     onlyIndirect := (m.diff r.reachable r.direct).length
     unreachable := (r.unreachable m).length }, annotated.log)

/-- The figures of a result, with the result that keeps them and the lines of
measuring.  Once kept, they are not measured again. -/
def figures (m : Model) (r : Result) : Figures × Result × Log :=
  match r.kept with
  | some figures => (figures, r, [])
  | none =>
      let (figures, log) := r.measure m
      (figures, { r with kept := some figures }, log)

end Result

end CallReach
