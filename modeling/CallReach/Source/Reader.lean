import CallReach.Source.Basic
import CallReach.Source.Fault

/-!
# Reading program sources

The forms of a program:

```text
(program <name>?
  (declare <fname> <sig>)
  (define  <fname> <sig>
    (block <bname>
      (call   <callee> <arg> ...)
      (invoke <callee> <arg> ...))))

<callee> := <fname> | (indirect <sig>)
<arg>    := (ref <fname>) | (operand <type> <vname>?)
<type>   := <symbol> | (ptr <type>) | <sig>
<sig>    := (fn <ret-type> <param-type> ... [...])
```

All functions are read first and the bodies after them, so a call may name a
function that is defined later.  The first mistake in that order is reported.

How a text becomes forms is left to a `Sexpr.Format`.  Forms are read to any
depth: the limit that an interpreter sets to its recursion is left out.
-/

namespace CallReach.Source

/-! ## Names and tagged lists -/

/-- A mistake at a form. -/
def mistakeAt {α : Type} (cause : Cause) (form : Sexpr) : Except Mistake α :=
  .error ⟨cause, some form⟩

/-- A name is a symbol or a text literal. -/
def nameOfSexpr : Sexpr → Except Mistake String
  | .symbol name => .ok name
  | .text name => .ok name
  | form => mistakeAt .notName form

/-- The operands of a list with a given tag and at least `least` operands. -/
def taggedOperands (tag : String) (least : Nat) (form : Sexpr) : Except Mistake (List Sexpr) :=
  match form with
  | .list (.symbol found :: operands) =>
      if found ≠ tag then mistakeAt (.expectedOther tag found) form
      else if operands.length < least then mistakeAt (.tooFewOperands tag least) form
      else .ok operands
  | .list (_ :: _) => mistakeAt .headNotSymbol form
  | _ => mistakeAt (.expected tag) form

/-- The tag and the operands of a list that stands where `missing` says. -/
def tagAndOperands (missing : Cause) (form : Sexpr) : Except Mistake (String × List Sexpr) :=
  match form with
  | .list (.symbol tag :: operands) => .ok (tag, operands)
  | .list (_ :: _) => mistakeAt .headNotSymbol form
  | _ => mistakeAt missing form

/-! ## Types -/

mutual
/-- A type: a spelling, `(ptr T)` or a signature. -/
def typeOfSexpr : Sexpr → Except Mistake Ty
  | .list [] => mistakeAt .emptyType (.list [])
  | .list (.symbol tag :: operands) =>
      let form := Sexpr.list (.symbol tag :: operands)
      if tag = "fn" then
        match operands with
        | [] => mistakeAt (.tooFewOperands "fn" 1) form
        | result :: params => do
            let result ← typeOfSexpr result
            let (params, variadic) ← paramsOfSexprs params
            return .signature result params variadic
      else if tag = "ptr" then
        match operands with
        | [pointee] => return .pointer (← typeOfSexpr pointee)
        | _ => mistakeAt .pointerOperands form
      else mistakeAt (.unknownType tag) form
  | .list (head :: operands) => mistakeAt .headNotSymbol (.list (head :: operands))
  | form => do
      match Ty.ofSpelling (← nameOfSexpr form) with
      | .ok type => return type
      | .error fault => mistakeAt (.badSpelling fault) form

/-- The parameters of a signature; three dots at the end make it variadic. -/
def paramsOfSexprs : List Sexpr → Except Mistake (List Ty × Bool)
  | [] => .ok ([], false)
  | [.symbol "..."] => .ok ([], true)
  | param :: rest => do
      let type ← typeOfSexpr param
      let (types, variadic) ← paramsOfSexprs rest
      return (type :: types, variadic)
end

/-- A signature. -/
def signatureOfSexpr (form : Sexpr) : Except Mistake Ty := do
  let _ ← taggedOperands "fn" 1 form
  typeOfSexpr form

/-! ## Functions -/

/-- A function before its body is read: a declaration has no body forms. -/
structure Header where
  name : String
  type : Ty
  body : Option (List Sexpr)

/-- The header of a declaration or definition. -/
def Header.ofSexpr (form : Sexpr) : Except Mistake Header := do
  let (tag, operands) ← tagAndOperands .expectedItem form
  match tag, operands with
  | "declare", [name, type] => return ⟨← nameOfSexpr name, ← signatureOfSexpr type, none⟩
  | "declare", _ :: _ :: _ => mistakeAt .bodyOfDeclaration form
  | "declare", _ => mistakeAt (.tooFewOperands "declare" 2) form
  | "define", name :: type :: blocks =>
      return ⟨← nameOfSexpr name, ← signatureOfSexpr type, some blocks⟩
  | "define", _ => mistakeAt (.tooFewOperands "define" 2) form
  | tag, _ => mistakeAt (.unknownItem tag) form

/-- The headers of a program's functions, whose names are all different. -/
def Header.ofSexprs (seen : List String) : List Sexpr → Except Mistake (List Header)
  | [] => .ok []
  | form :: rest => do
      let header ← Header.ofSexpr form
      if seen.contains header.name then mistakeAt (.duplicateFunction header.name) form
      else return header :: (← Header.ofSexprs (header.name :: seen) rest)

/-! ## Bodies -/

/-- The name of a function that the program has. -/
def knownNameOfSexpr (known : List String) (form : Sexpr) : Except Mistake String := do
  let name ← nameOfSexpr form
  if known.contains name then return name else mistakeAt (.unknownFunction name) form

/-- An argument of a call. -/
def Argument.ofSexpr (known : List String) (form : Sexpr) : Except Mistake Argument := do
  let (tag, operands) ← tagAndOperands .expectedArgument form
  match tag, operands with
  | "ref", name :: _ => return .ref (← knownNameOfSexpr known name)
  | "ref", [] => mistakeAt (.tooFewOperands "ref" 1) form
  | "operand", type :: name :: _ => do
      let name ← nameOfSexpr name
      return .operand (← typeOfSexpr type) (some name)
  | "operand", [type] => return .operand (← typeOfSexpr type) none
  | "operand", [] => mistakeAt (.tooFewOperands "operand" 1) form
  | tag, _ => mistakeAt (.unknownArgument tag) form

/-- The target of a call. -/
def Target.ofSexpr (known : List String) (form : Sexpr) : Except Mistake Target := do
  match form with
  | .list _ =>
      match ← taggedOperands "indirect" 1 form with
      | type :: _ => return .indirect (← signatureOfSexpr type)
      | [] => mistakeAt (.tooFewOperands "indirect" 1) form
  | _ => return .named (← knownNameOfSexpr known form)

/-- The kind of call that a tag stands for. -/
def callMode? : String → Option CallMode
  | "call" => some .call
  | "invoke" => some .invoke
  | _ => none

/-- A call; its arguments are read before its target. -/
def Call.ofSexpr (known : List String) (form : Sexpr) : Except Mistake Call := do
  let (tag, operands) ← tagAndOperands .expectedCall form
  match callMode? tag, operands with
  | none, _ => mistakeAt (.unknownCall tag) form
  | some _, [] => mistakeAt .missingCallee form
  | some kind, target :: arguments => do
      let arguments ← arguments.mapM (Argument.ofSexpr known)
      return ⟨kind, ← Target.ofSexpr known target, arguments⟩

/-- A block. -/
def Block.ofSexpr (known : List String) (form : Sexpr) : Except Mistake Block := do
  match ← taggedOperands "block" 1 form with
  | name :: calls => return ⟨← nameOfSexpr name, ← calls.mapM (Call.ofSexpr known)⟩
  | [] => mistakeAt (.tooFewOperands "block" 1) form

/-- A function with its body. -/
def Header.complete (known : List String) (header : Header) : Except Mistake Function := do
  match header.body with
  | none => return ⟨header.name, header.type, none⟩
  | some blocks =>
      return ⟨header.name, header.type, some (← blocks.mapM (Block.ofSexpr known))⟩

/-! ## Programs -/

/-- The name of a program and its items.  A name stands before the first item
and is not a list. -/
def splitProgramName (operands : List Sexpr) : Except Mistake (String × List Sexpr) :=
  match operands with
  | [] => .ok (defaultName, [])
  | .list form :: rest => .ok (defaultName, .list form :: rest)
  | name :: rest => return (← nameOfSexpr name, rest)

/-- A program form. -/
def Program.ofSexpr (form : Sexpr) : Except Mistake Program := do
  let (name, items) ← splitProgramName (← taggedOperands "program" 0 form)
  let headers ← Header.ofSexprs [] items
  let functions ← headers.mapM (Header.complete (headers.map (·.name)))
  return ⟨name, functions⟩

/-- The program that a text denotes: it holds exactly one form. -/
def Program.ofText (format : Sexpr.Format) (text : List Char) : Except Mistake Program :=
  match format.forms text with
  | .error reason => .error ⟨.notSexpr reason, none⟩
  | .ok [form] => Program.ofSexpr form
  | .ok forms => .error ⟨.formCount forms.length, none⟩

/-- The program of a text, which stands in a file. -/
def read (format : Sexpr.Format) (file : String) (text : List Char) : Except Fault Program :=
  (Program.ofText format text).mapError (Mistake.fault format file)

end CallReach.Source
