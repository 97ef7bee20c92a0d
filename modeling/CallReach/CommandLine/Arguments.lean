import CallReach.Report
import CallReach.Text.Digit

/-!
# Command-line arguments

Options may be abbreviated, joined, and mixed with the model in any order.
Every argument is first classified on its own; then the words are taken from
left to right.  `parse` gives the arguments of a run, or the reason to stop
before one: help, the version, or a fault of usage.
-/

namespace CallReach.CommandLine

open Text

/-! ## Options -/

/-- The options of the command line. -/
inductive Flag where
  | help
  | entry
  | format
  | config
  | noCallgraph
  | noCallbacks
  | color
  | noColor
  | output
  | verbose
  | version
deriving DecidableEq, Repr

namespace Flag

/-- All options, in the order of the usage. -/
def all : List Flag :=
  [help, entry, format, config, noCallgraph, noCallbacks, color, noColor, output, verbose, version]

/-- The spellings of an option. -/
def spellings : Flag → List String
  | help => ["-h", "--help"]
  | entry => ["-e", "--entry"]
  | format => ["-f", "--format"]
  | config => ["--config"]
  | noCallgraph => ["--no-callgraph"]
  | noCallbacks => ["--no-callbacks"]
  | color => ["--color"]
  | noColor => ["--no-color"]
  | output => ["-o", "--output"]
  | verbose => ["-v", "--verbose"]
  | version => ["--version"]

/-- The option as messages name it. -/
def label (flag : Flag) : String :=
  "/".intercalate flag.spellings

/-- Whether an option takes a value. -/
def takesValue : Flag → Bool
  | entry | format | config | output => true
  | _ => false

/-- All spellings with their options. -/
def table : List (String × Flag) :=
  all.flatMap fun flag => flag.spellings.map fun spelling => (spelling, flag)

/-- The option of a full spelling. -/
def ofSpelling? (spelling : String) : Option Flag :=
  table.lookup spelling

end Flag

/-- What is wrong with the arguments. -/
inductive UsageFault where
  | ambiguous (argument : String) (candidates : List String)
  | expectedValue (flag : Flag)
  /-- A value is attached to an option that takes none. -/
  | ignoredValue (flag : Flag) (value : String)
  | invalidFormat (value : String)
  | notAllowedWith (flag other : Flag)
  | missingModel
  | unrecognized (arguments : List String)
deriving DecidableEq, Repr

/-- The wording of a fault. -/
def UsageFault.message : UsageFault → String
  | ambiguous argument candidates =>
      "ambiguous option: " ++ argument ++ " could match " ++ ", ".intercalate candidates
  | expectedValue flag => "argument " ++ flag.label ++ ": expected one argument"
  | ignoredValue flag value =>
      "argument " ++ flag.label ++ ": ignored explicit argument " ++ quoted value
  | invalidFormat value =>
      "argument " ++ Flag.format.label ++ ": invalid choice: " ++ quoted value ++
        " (choose from " ++ ", ".intercalate (ReportFormat.all.map fun f => quoted f.name) ++ ")"
  | notAllowedWith flag other =>
      "argument " ++ flag.label ++ ": not allowed with argument " ++ other.label
  | missingModel => "the following arguments are required: model"
  | unrecognized arguments => "unrecognized arguments: " ++ " ".intercalate arguments

/-! ## Words -/

/-- An argument as it looks on its own. -/
inductive Word where
  | plain (text : String)
  /-- Two dashes, after which everything is plain. -/
  | dashes
  /-- An option with the text that is attached to it, if any. -/
  | option (flag : Flag) (isLong : Bool) (attached : Option String)
  /-- Something that looks like an option but is none. -/
  | unknown (text : String)
deriving DecidableEq, Repr

/-- The parts of a text before and after the first equals sign. -/
def splitEquals? (chars : List Char) : Option (String × String) :=
  match chars.dropWhile (· ≠ '=') with
  | [] => none
  | _ :: value => some (String.ofList (chars.takeWhile (· ≠ '=')), String.ofList value)

/-- Whether a spelling is that of a long option. -/
def isLongSpelling (spelling : String) : Bool :=
  "--".toList.isPrefixOf spelling.toList

/-- The option of a full spelling, with the text that is attached to it. -/
def optionWord? (spelling : String) (attached : Option String) : Option Word :=
  (Flag.ofSpelling? spelling).map fun flag => .option flag (isLongSpelling spelling) attached

/-- The option that an argument spells in full, with a text after an equals
sign or without one. -/
def spelledOut? (chars : List Char) : Option Word :=
  optionWord? (String.ofList chars) none <|> do
    let (spelling, text) ← splitEquals? chars
    optionWord? spelling (some text)

/-- The spellings that start with a text, with their options. -/
def completions (start : String) : List (String × Flag) :=
  Flag.table.filter fun (spelling, _) => start.toList.isPrefixOf spelling.toList

/-- The options that an argument may stand for when it spells none in full: a
long option by its start, a short one with a text attached. -/
def candidates (chars : List Char) : List (String × Word) :=
  match chars with
  | '-' :: '-' :: _ =>
      let (start, attached) := match splitEquals? chars with
        | some (start, text) => (start, some text)
        | none => (String.ofList chars, none)
      (completions start).map fun (spelling, flag) => (spelling, .option flag true attached)
  | _ =>
      let spelling := String.ofList (chars.take 2)
      match optionWord? spelling (some (String.ofList (chars.drop 2))) with
      | some word => [(spelling, word)]
      | none => []

/-- Whether all characters are digits. -/
def areDigits (chars : List Char) : Bool :=
  chars.all fun c => (digitValue? c).isSome

/-- The digits of a number, perhaps with a point that digits follow. -/
def isUnsignedNumber (chars : List Char) : Bool :=
  let whole := chars.takeWhile (· ≠ '.')
  match chars.dropWhile (· ≠ '.') with
  | [] => !whole.isEmpty && areDigits whole
  | _ :: fractional => areDigits whole && !fractional.isEmpty && areDigits fractional

/-- A number with a minus, which is never an option; a newline may end it. -/
def isNegativeNumber : List Char → Bool
  | '-' :: body =>
      isUnsignedNumber (if body.getLast? = some '\n' then body.dropLast else body)
  | _ => false

/-- Looks at one argument. -/
def classify (argument : String) : Except UsageFault Word :=
  match argument.toList with
  | '-' :: c :: rest =>
      let chars := '-' :: c :: rest
      match spelledOut? chars with
      | some word => .ok word
      | none =>
          match candidates chars with
          | [(_, word)] => .ok word
          | [] =>
              if isNegativeNumber chars || chars.contains ' ' then .ok (.plain argument)
              else .ok (.unknown argument)
          | several => .error (.ambiguous argument (several.map (·.1)))
  | _ => .ok (.plain argument)

/-- Looks at all arguments; two dashes make the rest plain. -/
def classifyAll : List String → Except UsageFault (List Word)
  | [] => .ok []
  | argument :: rest =>
      if argument = "--" then .ok (.dashes :: rest.map .plain)
      else return (← classify argument) :: (← classifyAll rest)

/-! ## Joined options -/

/-- The value of an option. -/
inductive Value where
  | text (value : String)
  /-- Two dashes that are attached to an option are dropped, as they are in
  front of the model, and nothing is left. -/
  | nothing
deriving DecidableEq, Repr

/-- The value that a text attached to an option denotes. -/
def Value.ofAttached (attached : String) : Value :=
  if attached = "--" then nothing else text attached

/-- A value as a setting; nothing is an empty list. -/
def Value.toJson : Value → Json
  | text value => .str value
  | nothing => .arr []

/-- The options of one argument: those without a value, and the last one with
the value that is attached to it. -/
structure Joined where
  before : List Flag
  last : Flag
  value : Option Value
deriving DecidableEq, Repr

/-- A short option with a text attached to it: its value, or the letters of
more short options. -/
def joinShort (flag : Flag) (attached : List Char) : Except UsageFault Joined :=
  if flag.takesValue then .ok ⟨[], flag, some (.ofAttached (String.ofList attached))⟩
  else
    match attached with
    | [] => .error (.ignoredValue flag "")
    | c :: rest =>
        match Flag.ofSpelling? (String.ofList ['-', c]) with
        | none => .error (.ignoredValue flag (String.ofList attached))
        | some next =>
            if rest.isEmpty then .ok ⟨[flag], next, none⟩
            else do
              let joined ← joinShort next rest
              return { joined with before := flag :: joined.before }

/-- The options of an option word. -/
def join (flag : Flag) (isLong : Bool) (attached : Option String) : Except UsageFault Joined :=
  match attached with
  | none => .ok ⟨[], flag, none⟩
  | some text =>
      if isLong && !flag.takesValue then .error (.ignoredValue flag text)
      else joinShort flag text.toList

/-! ## Taking words -/

/-- The arguments of a run. -/
structure Arguments where
  model : String
  entry : Option Value
  format : Option Value
  config : Option Value
  output : Option Value
  noCallgraph : Bool
  noCallbacks : Bool
  color : Option Bool
  verbosity : Nat
deriving DecidableEq, Repr

/-- Why there is no run. -/
inductive Stop where
  | help
  | version
  | fault (fault : UsageFault)
deriving DecidableEq, Repr

/-- Takes an option without a value. -/
def Arguments.switch (a : Arguments) (flag : Flag) : Except Stop Arguments :=
  match flag with
  | .help => .error .help
  | .version => .error .version
  | .noCallgraph => .ok { a with noCallgraph := true }
  | .noCallbacks => .ok { a with noCallbacks := true }
  | .color =>
      if a.color = some false then .error (.fault (.notAllowedWith .color .noColor))
      else .ok { a with color := some true }
  | .noColor =>
      if a.color = some true then .error (.fault (.notAllowedWith .noColor .color))
      else .ok { a with color := some false }
  | .verbose => .ok { a with verbosity := a.verbosity + 1 }
  | .entry | .format | .config | .output => .error (.fault (.expectedValue flag))

/-- Takes an option with a value.  A format has to be one of those that there
are; nothing is let through here and refused with the settings. -/
def Arguments.assign (a : Arguments) (flag : Flag) (value : Value) : Except Stop Arguments :=
  match flag, value with
  | .entry, _ => .ok { a with entry := some value }
  | .format, .text name =>
      if (ReportFormat.ofName? name).isSome then .ok { a with format := some value }
      else .error (.fault (.invalidFormat name))
  | .format, .nothing => .ok { a with format := some value }
  | .config, _ => .ok { a with config := some value }
  | .output, _ => .ok { a with output := some value }
  | _, _ => .error (.fault (.ignoredValue flag ""))

/-- Takes several options without a value. -/
def Arguments.switchAll (a : Arguments) (flags : List Flag) : Except Stop Arguments :=
  flags.foldlM Arguments.switch a

/-- What has been taken so far: the model if it was met, the options, and what
could not be placed. -/
structure Progress where
  model : Option String
  arguments : Arguments
  extras : List String

/-- Nothing taken. -/
def Progress.start : Progress :=
  ⟨none, ⟨"", none, none, none, none, false, false, none, 0⟩, []⟩

/-- Takes words from left to right.  The first plain word is the model, with
two dashes right before or after it. -/
def takeWords (p : Progress) : List Word → Except Stop Progress
  | [] => .ok p
  | .plain text :: rest =>
      if p.model.isSome then takeWords { p with extras := p.extras ++ [text] } rest
      else
        match rest with
        | .dashes :: rest => takeWords { p with model := some text } rest
        | rest => takeWords { p with model := some text } rest
  | .dashes :: rest =>
      match p.model, rest with
      | none, .plain text :: rest => takeWords { p with model := some text } rest
      | _, rest => takeWords { p with extras := p.extras ++ ["--"] } rest
  | .unknown text :: rest => takeWords { p with extras := p.extras ++ [text] } rest
  | .option flag isLong attached :: rest =>
      match join flag isLong attached with
      | .error fault => .error (.fault fault)
      | .ok ⟨before, last, some value⟩ => do
          let arguments ← (← p.arguments.switchAll before).assign last value
          takeWords { p with arguments } rest
      | .ok ⟨before, last, none⟩ =>
          match last.takesValue, rest with
          | false, rest => do
              let arguments ← (← p.arguments.switchAll before).switch last
              takeWords { p with arguments } rest
          | true, .plain text :: rest => do
              let arguments ← (← p.arguments.switchAll before).assign last (.text text)
              takeWords { p with arguments } rest
          | true, _ => .error (.fault (.expectedValue last))

/-- The arguments of a run, or the reason to stop before it. -/
def parse (arguments : List String) : Except Stop Arguments := do
  let words ← match classifyAll arguments with
    | .ok words => .ok words
    | .error fault => .error (.fault fault)
  let taken ← takeWords .start words
  match taken.model, taken.extras with
  | none, _ => .error (.fault .missingModel)
  | some model, [] => return { taken.arguments with model }
  | some _, extras => .error (.fault (.unrecognized extras))

end CallReach.CommandLine
