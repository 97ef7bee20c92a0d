import CallReach.Json.Basic
import CallReach.Ty.Basic

/-!
# Program models

A model holds programs and functions side by side.  Both are named by ids, so
that a call site can refer to a function of its own program, of another program
or of none, and an edit of one function is seen wherever that function is
referred to.

* A `Function` has a name, a type and either a body or none (a declaration).
* A `Program` lists its functions in the order in which they were added, and
  counts the edits made to it in `revision`.
* A `CallSite` has a callee, or none when the call is indirect.

An id that names nothing stands for a declaration without a name, or for an
empty program without a name.
-/

namespace CallReach

/-! ## Ids -/

/-- The id of a function. -/
@[ext]
structure FunctionId where
  index : Nat
deriving DecidableEq, Repr, Inhabited

/-- The id of a program. -/
structure ProgramId where
  index : Nat
deriving DecidableEq, Repr, Inhabited

/-- A block of a function's body, by its position. -/
structure BlockId where
  function : FunctionId
  index : Nat
deriving DecidableEq, Repr, Inhabited

/-- A call site of a block, by its position. -/
structure SiteId where
  block : BlockId
  index : Nat
deriving DecidableEq, Repr, Inhabited

/-! ## Parts of a model -/

/-- The flavour of a call instruction. -/
inductive CallMode where
  | call
  /-- A call that may unwind to an exception handler. -/
  | invoke
deriving DecidableEq, Repr

/-- The word for a call instruction. -/
def CallMode.word : CallMode → String
  | call => "call"
  | invoke => "invoke"

/-- The static target of a call. -/
inductive Callee where
  | function (id : FunctionId)
  /-- The call is indirect. -/
  | absent
  /-- Something that is not a function stands where the callee should. -/
  | other (value : Json)
deriving DecidableEq

/-- An argument of a call. -/
inductive Argument where
  /-- A function used as a value. -/
  | ref (function : FunctionId)
  /-- Any other value, of which only the type is known. -/
  | operand (type : Ty) (name : Option String)
  /-- Something that is neither. -/
  | other (value : Json)
deriving DecidableEq

/-- A call instruction. -/
structure CallSite where
  callee : Callee
  /-- The type of the called expression, when it is known. -/
  calledType : Option Ty
  arguments : List Argument
  kind : CallMode
deriving DecidableEq

/-- A call without a callee is indirect. -/
def CallSite.isIndirect (site : CallSite) : Bool :=
  match site.callee with
  | .absent => true
  | _ => false

/-- A sequence of call sites. -/
structure Block where
  name : String
  sites : List CallSite
deriving DecidableEq

/-- A function.  Its type is a signature in every program that is read from a
text, but the model does not insist on it. -/
structure Function where
  name : String
  type : Ty
  /-- The blocks of the body; a declaration has none. -/
  body : Option (List Block)
  /-- The program that the function was added to. -/
  owner : Option ProgramId
deriving DecidableEq

/-- A program: its functions by name, in the order of their addition. -/
structure Program where
  name : String
  revision : Nat
  table : List (String × FunctionId)
deriving DecidableEq

/-- Programs and functions. -/
structure Model where
  functions : Array Function
  programs : Array Program

namespace Model

/-- The model without programs and functions. -/
def empty : Model := ⟨#[], #[]⟩

instance : Inhabited Model := ⟨empty⟩

/-! ## Functions -/

/-- The function with an id. -/
def function (m : Model) (f : FunctionId) : Function :=
  m.functions.getD f.index ⟨"", .scalar "", none, none⟩

/-- The name of a function. -/
def name (m : Model) (f : FunctionId) : String :=
  (m.function f).name

/-- The type of a function. -/
def type (m : Model) (f : FunctionId) : Ty :=
  (m.function f).type

/-- The program that owns a function. -/
def owner (m : Model) (f : FunctionId) : Option ProgramId :=
  (m.function f).owner

/-- A declaration is a function without a body. -/
def isDeclaration (m : Model) (f : FunctionId) : Bool :=
  (m.function f).body.isNone

/-- The blocks of a function, none for a declaration. -/
def blocks (m : Model) (f : FunctionId) : List Block :=
  (m.function f).body.getD []

/-- The block with an id. -/
def block (m : Model) (b : BlockId) : Block :=
  (m.blocks b.function).getD b.index ⟨"", []⟩

/-- The call site with an id. -/
def site (m : Model) (s : SiteId) : CallSite :=
  (m.block s.block).sites.getD s.index ⟨.absent, none, [], .call⟩

/-- The call sites of a function in body order, with their ids. -/
def sites (m : Model) (f : FunctionId) : List (SiteId × CallSite) :=
  (m.blocks f).zipIdx.flatMap fun (block, i) =>
    block.sites.zipIdx.map fun (site, j) => (⟨⟨f, i⟩, j⟩, site)

/-- Two ids stand for the same function when they are equal, or when the
functions have the same name and the same owner. -/
def same (m : Model) (f g : FunctionId) : Bool :=
  f = g || (m.name f = m.name g && m.owner f = m.owner g)

/-! ## Programs -/

/-- The program with an id. -/
def program (m : Model) (p : ProgramId) : Program :=
  m.programs.getD p.index ⟨"", 0, []⟩

/-- The function of a program that has a name. -/
def find? (m : Model) (p : ProgramId) (name : String) : Option FunctionId :=
  (m.program p).table.lookup name

/-- The functions of a program. -/
def members (m : Model) (p : ProgramId) : List FunctionId :=
  (m.program p).table.map (·.2)

/-- The functions of a program that have a body. -/
def defined (m : Model) (p : ProgramId) : List FunctionId :=
  (m.members p).filter (!m.isDeclaration ·)

/-- The functions of a program that have none. -/
def declared (m : Model) (p : ProgramId) : List FunctionId :=
  (m.members p).filter (m.isDeclaration ·)

/-- A function belongs to a program when the program's table has that very
function under its name. -/
def owns (m : Model) (p : ProgramId) (f : FunctionId) : Bool :=
  m.find? p (m.name f) = some f

/-- The call sites of a program, function by function. -/
def programSites (m : Model) (p : ProgramId) : List (SiteId × CallSite) :=
  (m.members p).flatMap m.sites

end Model

end CallReach
