import CallReach.Reachability.Analysis
import CallReach.Report

/-!
# Options of a run

Options come as named JSON values, from a file or from the command line.
`Settings` holds such values before they are checked, and `Settings.check`
turns them into `Options` or says what is wrong with the first bad one.
-/

namespace CallReach

open Text

/-- The options of a run. -/
structure Options where
  entry : Wide
  usesGraph : Bool
  callbacks : Bool
  format : ReportFormat
  color : Option Bool
deriving DecidableEq, Repr

/-- The options of a run that names none. -/
def Options.standard : Options :=
  ⟨defaultEntry, true, true, .text, none⟩

/-- The operations that take named values. -/
inductive NamedCall where
  | create
  | override
deriving DecidableEq, Repr

/-- The name of an operation in messages. -/
def NamedCall.name : NamedCall → String
  | create => "ReachabilityConfig.__init__()"
  | override => "ReachabilityConfig.merged()"

/-- The name of the options that an operation works on.  They are always
there, so no value can be given under this name. -/
def receiverName : String := "self"

/-- What is wrong with the options. -/
inductive OptionsFault where
  | badEntry (value : Json)
  | notBoolean (name : String)
  | badColor
  | badFormat (value : Json)
  /-- There is no option of that name. -/
  | unknownName (name : Wide)
  /-- A value was given under the name of the options themselves. -/
  | receiverNamed (call : NamedCall)
deriving DecidableEq

/-- A name between apostrophes, with nothing escaped. -/
def apostrophed (name : String) : String :=
  "'" ++ name ++ "'"

/-- The wording of a fault. -/
def OptionsFault.message : OptionsFault → String
  | badEntry value => "entry must be a non-empty string, got " ++ value.literal
  | notBoolean name => name ++ " must be a boolean"
  | badColor => "color must be a boolean or null"
  | badFormat value =>
      "report_format must be one of " ++ ", ".intercalate (ReportFormat.all.map (·.name)) ++
        ", got " ++ value.literal
  | unknownName name =>
      NamedCall.create.name ++ " got an unexpected keyword argument " ++ apostrophed name.shown
  | receiverNamed call =>
      call.name ++ " got multiple values for argument " ++ apostrophed receiverName

/-! ## Unchecked values -/

/-- The values of the options before they are checked. -/
structure Settings where
  entry : Json
  useCallgraph : Json
  resolveCallbacks : Json
  reportFormat : Json
  color : Json
deriving DecidableEq

namespace Settings

/-- The values of given options. -/
def ofOptions (options : Options) : Settings where
  entry := .str options.entry
  useCallgraph := .bool options.usesGraph
  resolveCallbacks := .bool options.callbacks
  reportFormat := .str options.format.name
  color := match options.color with
    | some value => .bool value
    | none => .null

/-- The names of the options. -/
def names : List String :=
  ["entry", "use_callgraph", "resolve_callbacks", "report_format", "color"]

/-- Whether a text is the name of an option. -/
def isName (name : Wide) : Bool :=
  names.any fun known => name = known

/-- The settings with one option set; a name that is not an option's changes
nothing. -/
def set (settings : Settings) (name : Wide) (value : Json) : Settings :=
  match name with
  | .whole "entry" => { settings with entry := value }
  | .whole "use_callgraph" => { settings with useCallgraph := value }
  | .whole "resolve_callbacks" => { settings with resolveCallbacks := value }
  | .whole "report_format" => { settings with reportFormat := value }
  | .whole "color" => { settings with color := value }
  | _ => settings

/-- The settings with several options set. -/
def setAll (settings : Settings) (members : List (Wide × Json)) : Settings :=
  members.foldl (fun settings (name, value) => settings.set name value) settings

/-- A truth value. -/
def boolean (name : String) : Json → Except OptionsFault Bool
  | .bool value => .ok value
  | _ => .error (.notBoolean name)

/-- A truth value or null. -/
def optionalBoolean : Json → Except OptionsFault (Option Bool)
  | .null => .ok none
  | .bool value => .ok (some value)
  | _ => .error .badColor

/-- A text that is not empty. -/
def nonEmpty : Json → Except OptionsFault Wide
  | .str value => if value = "" then .error (.badEntry (.str value)) else .ok value
  | value => .error (.badEntry value)

/-- The options that the settings stand for.  Of several faults the first in
the order entry, graph, callbacks, colour, format is reported. -/
def check (settings : Settings) : Except OptionsFault Options := do
  let entry ← nonEmpty settings.entry
  let usesGraph ← boolean "use_callgraph" settings.useCallgraph
  let callbacks ← boolean "resolve_callbacks" settings.resolveCallbacks
  let color ← optionalBoolean settings.color
  match ReportFormat.ofJson? settings.reportFormat with
  | some format => return ⟨entry, usesGraph, callbacks, format, color⟩
  | none => .error (.badFormat settings.reportFormat)

end Settings

/-! ## Options from named values -/

namespace Options

/-- The fault of the first name that is not an option's, if there is one. -/
def nameFault? (members : List (Wide × Json)) : Option OptionsFault :=
  ((members.map (·.1)).find? fun name => !Settings.isName name).map fun name : Wide =>
    if name = receiverName then .receiverNamed .create else .unknownName name

/-- The options with named values set; every name has to be an option's. -/
def ofArguments (options : Options) (members : List (Wide × Json)) :
    Except OptionsFault Options :=
  match nameFault? members with
  | some fault => .error fault
  | none => ((Settings.ofOptions options).setAll members).check

/-- Options with every value applied that is not null.  The name of the options
themselves is refused even with null. -/
def override (options : Options) (members : List (Wide × Json)) :
    Except OptionsFault Options :=
  if members.any fun (name, _) => name = receiverName then .error (.receiverNamed .override)
  else options.ofArguments (members.filter fun (_, value) => value ≠ .null)

/-- The warnings for names that are no option's, in the order of the names. -/
def unknownWarnings (members : List (Wide × Json)) : List String :=
  let unknown := (members.map (·.1)).filter fun name => !Settings.isName name
  (unknown.mergeSort Wide.le).map fun name => "unknown option " ++ name.quoted ++ " ignored"

/-- Options from named values, with warnings for the names that are ignored. -/
def ofMembers (members : List (Wide × Json)) : Except OptionsFault (Options × List String) := do
  return (← ((Settings.ofOptions standard).setAll members).check, unknownWarnings members)

/-- What is doubtful about valid options. -/
def warnings (options : Options) : List String :=
  if options.callbacks then [] else ["resolve_callbacks is off; the result is not sound"]

/-- A warning as a line of the log. -/
def warningLine (channel : Log.Channel) (warning : String) : Log.Line :=
  ⟨.warning, channel, "ReachabilityConfig: " ++ warning⟩

end Options

end CallReach
