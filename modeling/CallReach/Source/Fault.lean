import CallReach.Sexpr.Format
import CallReach.Text.Utf8
import CallReach.Ty.Spelling

/-!
# Faults of a program text

Why a text is not a program.  The reader makes a `Mistake`: a cause and, mostly,
the form that is wrong.  A `Fault` is what is left of it for the one who asked:
the file, the wording and the written form, in the format that was read.
-/

namespace CallReach.Source

open Text

/-- What is wrong with a program text. -/
inductive Cause where
  | notUtf8 (fault : Utf8Fault)
  /-- The text is no expression, as the format says. -/
  | notSexpr (reason : String)
  | formCount (count : Nat)
  | notName
  /-- A list that starts with this tag was expected. -/
  | expected (tag : String)
  | expectedOther (tag found : String)
  | tooFewOperands (tag : String) (least : Nat)
  | headNotSymbol
  | unknownFunction (name : String)
  | emptyType
  | pointerOperands
  | unknownType (tag : String)
  | badSpelling (fault : TypeFault)
  | expectedItem
  | unknownItem (tag : String)
  | duplicateFunction (name : String)
  | bodyOfDeclaration
  | expectedCall
  | unknownCall (tag : String)
  | missingCallee
  | expectedArgument
  | unknownArgument (tag : String)
deriving DecidableEq

/-- A cause with the form it is found in. -/
structure Mistake where
  cause : Cause
  form : Option Sexpr

/-- The wording of a mistake, without its form. -/
def Mistake.summary (format : Sexpr.Format) (mistake : Mistake) : String :=
  match mistake.cause with
  | .notUtf8 fault => "not UTF-8: " ++ fault.message
  | .notSexpr reason => "invalid S-expression: " ++ reason
  | .formCount count => "expected exactly one (program ...) form, found " ++ toString count
  | .notName => "expected a name, got " ++ (mistake.form.map format.literal).getD ""
  | .expected tag => "expected (" ++ tag ++ " ...)"
  | .expectedOther tag found => "expected (" ++ tag ++ " ...), got (" ++ found ++ " ...)"
  | .tooFewOperands tag least =>
      "(" ++ tag ++ " ...) needs at least " ++ toString least ++ " operand(s)"
  | .headNotSymbol => "form must start with a symbol"
  | .unknownFunction name => "unknown function " ++ quoted name
  | .emptyType => "empty type"
  | .pointerOperands => "(ptr T) takes exactly one type"
  | .unknownType tag => "unknown type constructor " ++ quoted tag
  | .badSpelling fault => fault.message
  | .expectedItem => "expected (declare ...) or (define ...)"
  | .unknownItem tag => "unknown program item " ++ quoted tag
  | .duplicateFunction name => "duplicate function " ++ quoted name
  | .bodyOfDeclaration => "a declaration has no body"
  | .expectedCall => "expected (call ...) or (invoke ...)"
  | .unknownCall tag => "unknown instruction " ++ quoted tag
  | .missingCallee => "call without a callee"
  | .expectedArgument => "expected (ref ...) or (operand ...)"
  | .unknownArgument tag => "unknown argument form " ++ quoted tag

/-- A mistake in a file.  The form is there in its written form. -/
structure Fault where
  file : String
  summary : String
  form : Option String
deriving DecidableEq, Repr

/-- The fault that a mistake is in a file. -/
def Mistake.fault (format : Sexpr.Format) (file : String) (mistake : Mistake) : Fault :=
  ⟨file, mistake.summary format, mistake.form.map format.dumps⟩

/-- The wording of a fault.  A form without a text is not shown. -/
def Fault.message (fault : Fault) : String :=
  match fault.form with
  | none | some "" => fault.file ++ ": " ++ fault.summary
  | some form => fault.file ++ ": " ++ fault.summary ++ " (in " ++ form ++ ")"

end CallReach.Source
