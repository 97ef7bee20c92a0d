import CallReach.CommandLine.Run
import Std.Time.Zoned

/-!
# The program

The command line on the disk and the standard streams.  Everything that is
decided is decided by `CommandLine.run`; this module reads, writes and prints.
-/

namespace CallReach.Main

open Files CommandLine

/-! ## The disk -/

/-- The kind of a failure of the system. -/
def faultKind : IO.Error → FaultKind
  | .noFileOrDirectory .. => .missing
  | .alreadyExists .. => .alreadyExists
  | .inappropriateType _ 20 _ => .notDirectory
  | .inappropriateType .. => .isDirectory
  | .invalidArgument _ 36 _ => .nameTooLong
  | .permissionDenied _ number _ => .other number.toNat "Permission denied"
  | error => .other 5 (toString error)

/-- An operation of the system with its failure as a value. -/
def attempt {α : Type} (path : String) (action : IO α) : IO (Except Fault α) := do
  match ← action.toBaseIO with
  | .ok a => return .ok a
  | .error error => return .error ⟨faultKind error, path⟩

/-- The contents of a file of the disk. -/
def readBytes (path : String) : IO (Except Fault (List UInt8)) :=
  attempt path do
    let handle ← IO.FS.Handle.mk path .read
    return (← handle.readBinToEnd).toList

/-- Whether something is at a path: a file, or a directory, which cannot be
read as a file. -/
def isThere (path : String) : IO (Except Fault Bool) := do
  match ← attempt path (IO.FS.Handle.mk path .read) with
  | .ok _ => return .ok true
  | .error ⟨.isDirectory, _⟩ => return .ok true
  | .error ⟨.missing, _⟩ | .error ⟨.notDirectory, _⟩ => return .ok false
  | .error fault => return .error fault

/-- Whether a directory is at a place. -/
def isDirectory (place : List String) : IO Bool := do
  match ← (IO.FS.realPath (placeText (place ++ ["."]))).toBaseIO with
  | .ok _ => return true
  | .error _ => return false

/-- Makes a directory and those above it that are missing; the place is given
backwards. -/
def makeDirectories : List String → IO (Except Fault Unit)
  | [] => return .ok ()
  | name :: above => do
      let place := (name :: above).reverse
      let text := placeText place
      match ← attempt text (IO.FS.createDir text) with
      | .ok () => return .ok ()
      | .error ⟨.missing, _⟩ =>
          match ← makeDirectories above with
          | .error fault => return .error fault
          | .ok () => attempt text (IO.FS.createDir text)
      | .error fault =>
          if ← isDirectory place then return .ok () else return .error fault

/-- The disk as a file system. -/
def disk : System IO where
  isThere path := isThere path.text
  read path := readBytes path.text
  write path bytes := do
    let directory := Path.parse (← IO.currentDir).toString
    let place := path.place directory.names
    match ← makeDirectories place.reverse.tail with
    | .error fault => return .error fault
    | .ok () =>
        attempt (placeText place) (IO.FS.writeBinFile (placeText place) ⟨bytes.toArray⟩)

/-! ## Home directories -/

/-- A user as the system lists it. -/
structure User where
  name : String
  number : String
  home : String

/-- The user of a line of the list of users. -/
def User.ofLine? (line : String) : Option User :=
  match line.splitOn ":" with
  | name :: _ :: number :: _ :: _ :: home :: _ => some ⟨name, number, home⟩
  | _ => none

/-- The lines of a file, and none if it cannot be read. -/
def linesOf (path : String) : IO (List String) := do
  match ← (IO.FS.readFile path).toBaseIO with
  | .ok text => return text.splitOn "\n"
  | .error _ => return []

/-- The number of the user who runs the program. -/
def ownNumber? : IO (Option String) := do
  let fields := (← linesOf "/proc/self/status").map (·.splitOn "\t")
  return fields.findSome? fun
    | "Uid:" :: number :: _ => some number
    | _ => none

/-- The home directories: the one of the environment for the user who runs the
program, and those of the list of users. -/
def homes : IO Homes := do
  let users := (← linesOf "/etc/passwd").filterMap User.ofLine?
  let number ← ownNumber?
  let own := (← IO.getEnv "HOME").or ((users.find? fun user => number = user.number).map (·.home))
  return fun name => if name = "" then own else (users.find? (·.name = name)).map (·.home)

/-! ## The standard streams -/

/-- How deeply the values of an options file may be nested. -/
def nestingLimit : Nat := 992

/-- What is found around a run. -/
def surroundings : IO Surroundings :=
  return {
    colorForbidden := (← IO.getEnv "NO_COLOR").isSome
    output := if ← (← IO.getStdout).isTty then .terminal else .other
    homes := ← homes
    nesting := nestingLimit
    format := .standard
    painter := .terminal }

/-- A number with two digits at least. -/
def twoDigits (n : Nat) : String :=
  String.ofList (Text.padDigits 10 2 n)

/-- The time of the day, as it stands in front of a line of the log. -/
def timeOfDay : IO String := do
  let now ← Std.Time.PlainTime.now
  return ":".intercalate
    [twoDigits now.hour.val.toNat, twoDigits now.minute.val.toNat, twoDigits now.second.val.toNat]

end CallReach.Main

open CallReach CallReach.Main in
/-- Runs the command line and gives its exit code. -/
def main (arguments : List String) : IO UInt32 := do
  match ← CommandLine.run disk (← surroundings) arguments with
  | .error crash => throw (IO.userError crash.message)
  | .ok outcome =>
      let err ← IO.getStderr
      err.putStr outcome.complaint
      for line in outcome.log do
        err.putStr ((← timeOfDay) ++ " " ++ line.shown ++ "\n")
      IO.print outcome.output
      return outcome.exitCode.toUInt32
