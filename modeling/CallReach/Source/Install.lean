import CallReach.Model.Edit
import CallReach.Source.Basic

/-!
# Installing a source

Builds the program of a source in a model: first all functions, then the
bodies, with names replaced by the ids of the program's functions.  A source
that was read names only functions it has, so every name is found.
-/

namespace CallReach.Source

/-- Adds the functions of a source to a program, without their bodies. -/
def addFunctions (p : ProgramId) (functions : List Function) (m : Model) :
    Model × List FunctionId :=
  functions.foldl
    (fun (m, ids) function =>
      let (m, f) := m.newFunction function.name function.type function.body.isSome
      (m.attach p f, ids ++ [f]))
    (m, [])

/-- The callee and the called type of a target. -/
def Target.resolve (m : Model) (p : ProgramId) : Target → Callee × Option Ty
  | named name =>
      match m.find? p name with
      | some f => (.function f, none)
      | none => (.absent, none)
  | indirect type => (.absent, some type)

/-- An argument with its function found. -/
def Argument.resolve (m : Model) (p : ProgramId) : Argument → Option CallReach.Argument
  | ref name => (m.find? p name).map .ref
  | operand type name => some (.operand type name)

/-- Adds a call to a block. -/
def newCall (p : ProgramId) (b : BlockId) (m : Model) (call : Call) : Model :=
  let (callee, type) := call.target.resolve m p
  (m.newCall b callee (call.arguments.filterMap (·.resolve m p)) type call.kind).1

/-- Adds a block with its calls to a function. -/
def newBlock (p : ProgramId) (f : FunctionId) (m : Model) (block : Block) : Model :=
  let (m, b) := m.appendBlock f (m.blockName f (some block.name))
  block.calls.foldl (newCall p b) m

/-- Adds the body of a function. -/
def addBody (p : ProgramId) (m : Model) (entry : FunctionId × Function) : Model :=
  (entry.2.body.getD []).foldl (newBlock p entry.1) m

/-- Builds the program of a source in a model. -/
def Program.install (source : Program) (m : Model) : Model × ProgramId :=
  let (m, p) := m.newProgram source.name
  let (m, ids) := addFunctions p source.functions m
  ((ids.zip source.functions).foldl (addBody p) m, p)

end CallReach.Source
