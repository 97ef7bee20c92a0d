import CallReach.Model.Basic

/-!
# Descriptions

The texts by which messages and logs name programs, functions, blocks and call
sites.
-/

namespace CallReach.Model

open Text

/-- A function with its kind and type. -/
def describeFunction (m : Model) (f : FunctionId) : String :=
  let kind := if m.isDeclaration f then "declare" else "define"
  "Function(" ++ kind ++ " " ++ m.name f ++ ": " ++ (m.type f).text ++ ")"

/-- A block with its function and its number of call sites. -/
def describeBlock (m : Model) (b : BlockId) : String :=
  "BasicBlock(" ++ m.name b.function ++ ":" ++ (m.block b).name ++ ", calls=" ++
    toString (m.block b).sites.length ++ ")"

/-- An argument of a call. -/
def describeArgument (m : Model) : Argument → String
  | .ref f => "@" ++ m.name f
  | .operand type none => type.text
  | .operand type (some name) => if name.isEmpty then type.text else type.text ++ " %" ++ name
  | .other value => value.plain

/-- The target of a call; a call without a function as its callee shows its
type. -/
def describeTarget (m : Model) (site : CallSite) : String :=
  match site.callee with
  | .function f => m.name f
  | _ => "<indirect " ++ (match site.calledType with
      | some type => type.text
      | none => "None") ++ ">"

/-- A call site with its arguments and its place. -/
def describeSite (m : Model) (s : SiteId) : String :=
  let site := m.site s
  "CallSite(" ++ site.kind.word ++ " " ++ m.describeTarget site ++ "(" ++
    ", ".intercalate (site.arguments.map m.describeArgument) ++ ") in " ++
    m.name s.block.function ++ ":" ++ (m.block s.block).name ++ ")"

/-- A program with the numbers of its functions. -/
def describeProgram (m : Model) (p : ProgramId) : String :=
  "ProgramModel(" ++ quoted (m.program p).name ++ ", functions=" ++
    toString (m.members p).length ++ ", defined=" ++ toString (m.defined p).length ++ ")"

end CallReach.Model
