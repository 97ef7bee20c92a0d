import CallReach.Files.Fault
import CallReach.Json.Reader
import CallReach.Options.Basic
import CallReach.Text.Utf8

/-!
# Options from a file

The bytes of a JSON file as options.  Every way in which this fails is a
`LoadFault`; most of them are complaints about the options, and bytes that are
not UTF-8, integers that are too long and values that are nested too deeply are
faults of their own.

How deeply values are nested is limited in the reader.  Messages that show a
value show it as a whole.
-/

namespace CallReach.Options

open Text

/-- Why a file gives no options. -/
inductive LoadFault where
  | unreadable (path : String) (fault : Files.Fault)
  | notUtf8 (fault : Utf8Fault)
  | notJson (path : String) (fault : Json.Fault)
  /-- An integer has this many digits, which is too many. -/
  | tooManyDigits (count : Nat)
  /-- Compound values are nested too deeply. -/
  | tooDeep (kind : Json.Compound)
  | notObject (path : String)
  | invalid (fault : OptionsFault)
deriving DecidableEq

/-- The wording of a fault. -/
def LoadFault.message : LoadFault → String
  | unreadable path fault => "cannot read config " ++ path ++ ": " ++ fault.message
  | notUtf8 fault => fault.message
  | notJson path fault => "cannot read config " ++ path ++ ": " ++ fault.message
  | tooManyDigits count => Json.Flaw.message (.tooManyDigits count)
  | tooDeep kind => Json.Flaw.message (.tooDeep kind)
  | notObject path => "config " ++ path ++ " must contain a JSON object"
  | invalid fault => fault.message

/-- The options that the contents of a file give, with the lines of the log.
Values may be nested up to a limit. -/
def ofContents (nesting : Nat) (path : String) (contents : Except Files.Fault (List UInt8)) :
    Except LoadFault (Options × Log) := do
  let bytes ← match contents with
    | .ok bytes => .ok bytes
    | .error fault => .error (.unreadable path fault)
  let chars ← match Utf8.decode bytes with
    | .ok chars => .ok (unifyLineEnds chars)
    | .error fault => .error (.notUtf8 fault)
  match Json.parse nesting chars with
  | .error fault =>
      match fault.flaw with
      | .tooManyDigits count => .error (.tooManyDigits count)
      | .tooDeep kind => .error (.tooDeep kind)
      | _ => .error (.notJson path fault)
  | .ok (.obj members) =>
      match ofMembers members with
      | .error fault => .error (.invalid fault)
      | .ok (options, warnings) => return (options, warnings.map (warningLine .config))
  | .ok _ => .error (.notObject path)

end CallReach.Options
