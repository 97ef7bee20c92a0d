import CallReach.Text.Quoted

/-!
# Faults of the file system

The reasons for which a file cannot be read or written, with their numbers and
wordings.
-/

namespace CallReach.Files

/-- Why an operation on a path fails. -/
inductive FaultKind where
  | missing
  | alreadyExists
  | notDirectory
  | isDirectory
  | nameTooLong
  /-- Any other reason, as the system gives it. -/
  | other (number : Nat) (text : String)
deriving DecidableEq, Repr

/-- The number of a reason. -/
def FaultKind.number : FaultKind → Nat
  | missing => 2
  | alreadyExists => 17
  | notDirectory => 20
  | isDirectory => 21
  | nameTooLong => 36
  | other number _ => number

/-- The wording of a reason. -/
def FaultKind.text : FaultKind → String
  | missing => "No such file or directory"
  | alreadyExists => "File exists"
  | notDirectory => "Not a directory"
  | isDirectory => "Is a directory"
  | nameTooLong => "File name too long"
  | other _ text => text

/-- A failure at a path. -/
structure Fault where
  kind : FaultKind
  path : String
deriving DecidableEq, Repr

/-- The wording of a failure. -/
def Fault.message (fault : Fault) : String :=
  "[Errno " ++ toString fault.kind.number ++ "] " ++ fault.kind.text ++ ": " ++
    Text.quoted fault.path

end CallReach.Files
