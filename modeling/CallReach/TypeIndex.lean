import CallReach.Model.FunctionSet

/-!
# Type index

The defined functions of a program by type.  A call through a value of some
type may reach every defined function of exactly that type.  Declarations are
left out, since they have no body that could be reached.
-/

namespace CallReach

/-- Defined functions by type, in the order in which the types were first
met. -/
structure TypeIndex where
  groups : List (Ty × FunctionSet)

namespace TypeIndex

/-- Puts a function into the group of its type. -/
def addToGroup (m : Model) (f : FunctionId) : List (Ty × FunctionSet) → List (Ty × FunctionSet)
  | [] => [(m.type f, [f])]
  | (type, set) :: rest =>
      if type = m.type f then (type, m.insert set f) :: rest
      else (type, set) :: addToGroup m f rest

/-- The index of a list of functions. -/
def build (m : Model) (functions : List FunctionId) : TypeIndex :=
  ⟨(functions.filter (!m.isDeclaration ·)).foldl (fun groups f => addToGroup m f groups) []⟩

/-- The index of a program. -/
def ofProgram (m : Model) (p : ProgramId) : TypeIndex :=
  build m (m.members p)

/-- The defined functions of a type. -/
def lookup (index : TypeIndex) (type : Ty) : FunctionSet :=
  (index.groups.lookup type).getD []

/-- Whether the index has a group for a type. -/
def contains (index : TypeIndex) (type : Ty) : Bool :=
  index.groups.any (·.1 = type)

/-- The index with its numbers of types and functions. -/
def describe (index : TypeIndex) : String :=
  let functions := (index.groups.flatMap (·.2)).length
  "SignatureIndex(signatures=" ++ toString index.groups.length ++ ", functions=" ++
    toString functions ++ ")"

end TypeIndex

end CallReach
