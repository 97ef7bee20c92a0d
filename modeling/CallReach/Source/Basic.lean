import CallReach.Model.Basic

/-!
# Program sources

The abstract syntax of the textual program format: a program with its functions
in order, where calls and references name functions instead of holding their
ids.  A source is what the reader makes of a text, and `Source.install` puts it
into a model.
-/

namespace CallReach.Source

/-- What a call names as its target. -/
inductive Target where
  | named (function : String)
  /-- A call through a value of this function type. -/
  | indirect (type : Ty)
deriving DecidableEq

/-- An argument of a call. -/
inductive Argument where
  | ref (function : String)
  | operand (type : Ty) (name : Option String)
deriving DecidableEq

/-- A call instruction. -/
structure Call where
  kind : CallMode
  target : Target
  arguments : List Argument
deriving DecidableEq

/-- A block of calls. -/
structure Block where
  name : String
  calls : List Call
deriving DecidableEq

/-- A function; a declaration has no body. -/
structure Function where
  name : String
  type : Ty
  body : Option (List Block)
deriving DecidableEq

/-- A program. -/
structure Program where
  name : String
  functions : List Function
deriving DecidableEq

/-- The name of a program that has none of its own. -/
def defaultName : String := "<module>"

end CallReach.Source
