import CallReach.Model.Describe

/-!
# Editing a model

Programs and functions are created empty and grow by adding functions, blocks
and call sites.  Every successful edit of a function moves the revision of the
program that owns it, and no other revision.

* `attach`, `appendBlock` and `appendCall` do an edit without asking.
* A `Change` passes the model through its steps and may be refused on the way,
  with a `ModelFault`; what it has done until then stays done.  `Change.adopt`,
  `Change.create` and `Change.newBlock` refuse what would break the model.
-/

namespace CallReach

open Text

/-- Why a model is inconsistent, or an edit is refused. -/
inductive ModelFault where
  /-- A block was to be added to a declaration. -/
  | bodyOfDeclaration (name : String)
  /-- The program has a function of that name. -/
  | duplicate (name : String)
  /-- The function belongs to another program. -/
  | ownedElsewhere (name owner : String)
  /-- A call site refers to a function that its program does not have. -/
  | dangling (site : SiteId) (ref : FunctionId) (program : ProgramId)
  /-- A call graph belongs to another program. -/
  | foreignGraph
deriving DecidableEq, Repr

/-- The wording of a fault. -/
def ModelFault.message (m : Model) : ModelFault → String
  | bodyOfDeclaration name => "Cannot add a block to declaration " ++ quoted name
  | duplicate name => "Duplicate function " ++ quoted name
  | ownedElsewhere name owner =>
      "Function " ++ quoted name ++ " already belongs to " ++ quoted owner
  | dangling site ref program =>
      m.describeSite site ++ " refers to " ++ quoted (m.name ref) ++
        ", which is not a function of " ++ quoted (m.program program).name
  | foreignGraph => "call graph was built for a different program"

namespace Model

/-! ## New programs and functions -/

/-- A new program without functions. -/
def newProgram (m : Model) (name : String) : Model × ProgramId :=
  ({ m with programs := m.programs.push ⟨name, 0, []⟩ }, ⟨m.programs.size⟩)

/-- A new function that no program owns, with an empty body if it is defined. -/
def newFunction (m : Model) (name : String) (type : Ty) (isDefined : Bool) :
    Model × FunctionId :=
  let body := if isDefined then some [] else none
  ({ m with functions := m.functions.push ⟨name, type, body, none⟩ }, ⟨m.functions.size⟩)

/-! ## Edits without questions -/

/-- The model with one function changed. -/
def modifyFunction (m : Model) (f : FunctionId) (change : Function → Function) : Model :=
  { m with functions := m.functions.modify f.index change }

/-- The model with one program changed. -/
def modifyProgram (m : Model) (p : ProgramId) (change : Program → Program) : Model :=
  { m with programs := m.programs.modify p.index change }

/-- Makes a program the owner of a function. -/
def setOwner (m : Model) (p : ProgramId) (f : FunctionId) : Model :=
  m.modifyFunction f fun function => { function with owner := some p }

/-- Enters a function at the end of a program's table, under its name. -/
def enter (m : Model) (p : ProgramId) (f : FunctionId) : Model :=
  m.modifyProgram p fun program => { program with table := program.table ++ [(m.name f, f)] }

/-- Moves the revision of a program. -/
def advance (m : Model) (p : ProgramId) : Model :=
  m.modifyProgram p fun program => { program with revision := program.revision + 1 }

/-- Moves the revision of the program that owns a function. -/
def bumpRevision (m : Model) (f : FunctionId) : Model :=
  match m.owner f with
  | none => m
  | some p => m.advance p

/-- Puts a function at the end of a program. -/
def attach (m : Model) (p : ProgramId) (f : FunctionId) : Model :=
  ((m.setOwner p f).enter p f).advance p

/-- Puts a block at the end of a function's body. -/
def appendBlock (m : Model) (f : FunctionId) (name : String) : Model × BlockId :=
  let edited := m.modifyFunction f fun function =>
    { function with body := function.body.map (· ++ [⟨name, []⟩]) }
  (edited.bumpRevision f, ⟨f, (m.blocks f).length⟩)

/-- Puts a call site at the end of a block. -/
def appendCall (m : Model) (b : BlockId) (site : CallSite) : Model × SiteId :=
  let edited := m.modifyFunction b.function fun function =>
    { function with
      body := function.body.map fun blocks =>
        blocks.modify b.index fun block => { block with sites := block.sites ++ [site] } }
  (edited.bumpRevision b.function, ⟨b, (m.block b).sites.length⟩)

/-- The name of a new block: the one that is given, or one made of its
position when that is missing or empty. -/
def blockName (m : Model) (f : FunctionId) (name : Option String) : String :=
  match name with
  | some name => if name.isEmpty then "bb" ++ toString (m.blocks f).length else name
  | none => "bb" ++ toString (m.blocks f).length

/-- Adds a call to a block.  The called type of a call to a function is that
function's type unless another one is given. -/
def newCall (m : Model) (b : BlockId) (callee : Callee) (arguments : List Argument)
    (calledType : Option Ty) (kind : CallMode) : Model × SiteId :=
  let type := match calledType, callee with
    | none, .function f => some (m.type f)
    | given, _ => given
  m.appendCall b ⟨callee, type, arguments, kind⟩

/-! ## Edits that may be refused -/

/-- A change of a model.  What was done before a refusal stays done. -/
abbrev Change := ExceptT ModelFault (StateM Model)

namespace Change

/-- An edit that is never refused, as a change. -/
def of {α : Type} (edit : Model → Model × α) : Change α := do
  let (edited, made) := edit (← get)
  set edited
  return made

/-- Adds a function to a program. -/
def adopt (p : ProgramId) (f : FunctionId) : Change Unit := do
  let m ← get
  if (m.find? p (m.name f)).isSome then throw (.duplicate (m.name f))
  if let some owner := m.owner f then
    if owner ≠ p then throw (.ownedElsewhere (m.name f) (m.program owner).name)
  modify (·.setOwner p f)
  modify (·.enter p f)
  modify (·.advance p)

/-- Creates a function in a program, with an empty body if it is defined. -/
def create (p : ProgramId) (name : String) (type : Ty) (isDefined : Bool) : Change FunctionId := do
  let f ← of (·.newFunction name type isDefined)
  adopt p f
  return f

/-- Adds a block to a function. -/
def newBlock (f : FunctionId) (name : Option String) : Change BlockId := do
  let m ← get
  if m.isDeclaration f then throw (.bodyOfDeclaration (m.name f))
  of (·.appendBlock f (m.blockName f name))

end Change

/-! ## Consistency -/

/-- The functions that a call site refers to: the callee, then the arguments. -/
def refs (site : CallSite) : List FunctionId :=
  let callee := match site.callee with
    | .function f => [f]
    | _ => []
  callee ++ site.arguments.filterMap fun
    | .ref f => some f
    | _ => none

/-- The first reference of a program's call sites that leaves the program. -/
def dangling? (m : Model) (p : ProgramId) : Option (SiteId × FunctionId) :=
  (m.programSites p).findSome? fun (id, site) =>
    ((refs site).find? fun f => !m.owns p f).map fun f => (id, f)

/-- Checks that every function that a call site refers to belongs to the
program. -/
def checkRefs (m : Model) (p : ProgramId) : Except ModelFault Unit :=
  match m.dangling? p with
  | none => .ok ()
  | some (site, ref) => .error (.dangling site ref p)

end Model

end CallReach
