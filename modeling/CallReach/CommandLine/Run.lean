import CallReach.CommandLine.Arguments
import CallReach.CommandLine.Usage
import CallReach.Files.System
import CallReach.Options.File
import CallReach.Pass
import CallReach.Source.Install
import CallReach.Source.Reader

/-!
# Runs of the command line

A run reads options and a model, asks its query and writes the report.  It is
written for any monad with a file system, so the same definition runs on a tree
of files and on the disk.  What else a run depends on are its `Surroundings`.

The exit code is 0 for a report, 1 when the model or the query fails, and 2
when the options are bad or a file cannot be read or written.  A few faults
leave a run without an exit code, as a `Crash`.
-/

namespace CallReach.CommandLine

open Text

/-! ## Outcomes -/

/-- What a run leaves behind, apart from files. -/
structure Outcome where
  exitCode : Nat
  /-- The text on the standard output. -/
  output : String
  /-- What is said about the usage. -/
  complaint : String
  /-- The lines of the log that are shown. -/
  log : Log

/-- A fault that ends the program without an exit code of its own. -/
inductive Crash where
  /-- The options file is not UTF-8. -/
  | optionsNotUtf8 (fault : Utf8Fault)
  /-- An integer of the options file has too many digits. -/
  | optionsTooManyDigits (count : Nat)
  /-- The values of the options file are nested too deeply. -/
  | optionsTooDeep (kind : Json.Compound)
  /-- The output is named by nothing at all. -/
  | outputNotText
  /-- A path holds the null character. -/
  | nullInPath
  /-- A path starts at a home directory that is not known. -/
  | noHome
deriving DecidableEq

/-- The wording of a crash. -/
def Crash.message : Crash → String
  | optionsNotUtf8 fault => fault.message
  | optionsTooManyDigits count => Json.Flaw.message (.tooManyDigits count)
  | optionsTooDeep kind => Json.Flaw.message (.tooDeep kind)
  | outputNotText => "expected str, bytes or os.PathLike object, not list"
  | nullInPath => "embedded null byte"
  | noHome => "Could not determine home directory."

/-- The crash of a path that cannot start at a home directory. -/
def Crash.ofHome : Files.HomeFault → Crash
  | .unknown => noHome
  | .nullInName => nullInPath

/-- What a run finds around it. -/
structure Surroundings where
  /-- Whether the environment forbids colour. -/
  colorForbidden : Bool
  /-- What the standard output is. -/
  output : Stream
  homes : Files.Homes
  /-- How deeply the values of an options file may be nested. -/
  nesting : Nat
  /-- How the expressions of a model are written. -/
  format : Sexpr.Format
  /-- How the listing is coloured. -/
  painter : Painter

/-- A line of the command itself. -/
def errorLine (text : String) : Log.Line :=
  ⟨.error, .command, text⟩

/-- The least important level that is shown. -/
def shownLevel (verbosity : Nat) : Log.Level :=
  match verbosity with
  | 0 => .warning
  | 1 => .info
  | _ => .debug

/-! ## Options -/

/-- The options that are given on the command line, by name. -/
def Arguments.overrides (a : Arguments) : List (Wide × Json) :=
  let value (v : Option Value) : Json := (v.map Value.toJson).getD .null
  let off (given : Bool) : Json := if given then .bool false else .null
  [("entry", value a.entry),
   ("report_format", value a.format),
   ("use_callgraph", off a.noCallgraph),
   ("resolve_callbacks", off a.noCallbacks),
   ("color", (a.color.map Json.bool).getD .null)]

/-- The path of the options file, if one is named by a text that is not
empty. -/
def Arguments.optionsPath? (a : Arguments) : Option Files.Path :=
  match a.config with
  | some (.text path) => if path.isEmpty then none else some (.parse path)
  | _ => none

/-- The options of a run: those of the file, or the standard ones, with the
ones of the command line in front. -/
def loadOptions {m : Type → Type} [Monad m] (files : Files.System m) (nesting : Nat)
    (a : Arguments) : m (Log × Except Options.LoadFault Options) := do
  let base ← match a.optionsPath? with
    | none => pure (.ok (Options.standard, []))
    | some path => do
        let contents ← files.read path
        pure (Options.ofContents nesting path.text contents)
  match base with
  | .error fault => return ([], .error fault)
  | .ok (options, log) =>
      match options.override a.overrides with
      | .ok options => return (log, .ok options)
      | .error fault => return (log, .error (.invalid fault))

/-! ## The model -/

/-- Why a run has no program, with its exit code. -/
inductive ModelFailure where
  | notThere (path : Files.Path)
  | unreadable (fault : Files.Fault)
  | badSource (fault : Source.Fault)
  | inconsistent (m : Model) (fault : ModelFault)

/-- The exit code of a failure. -/
def ModelFailure.exitCode : ModelFailure → Nat
  | notThere _ | unreadable _ => 2
  | badSource _ | inconsistent _ _ => 1

/-- The wording of a failure. -/
def ModelFailure.message : ModelFailure → String
  | notThere path => "model not found: " ++ path.text
  | unreadable fault => fault.message
  | badSource fault => fault.message
  | inconsistent m fault => fault.message m

/-- The path of the model. -/
def Arguments.modelPath (homes : Files.Homes) (a : Arguments) : Except Crash Files.Path :=
  ((Files.Path.parse a.model).expandUser homes).mapError Crash.ofHome

/-- The source that the bytes of a file denote. -/
def sourceOfBytes (format : Sexpr.Format) (file : String) (bytes : List UInt8) :
    Except Source.Fault Source.Program :=
  match Utf8.decode bytes with
  | .error fault => .error (Source.Mistake.fault format file ⟨.notUtf8 fault, none⟩)
  | .ok chars => Source.read format file (unifyLineEnds chars)

/-- Reads the program of a run. -/
def openModel {m : Type → Type} [Monad m] (files : Files.System m) (format : Sexpr.Format)
    (path : Files.Path) : m (Except ModelFailure (Model × ProgramId)) := do
  match ← files.isThere path with
  | .error fault => return .error (.unreadable fault)
  | .ok false => return .error (.notThere path)
  | .ok true =>
      match ← files.read path with
      | .error fault => return .error (.unreadable fault)
      | .ok bytes =>
          match sourceOfBytes format path.text bytes with
          | .error fault => return .error (.badSource fault)
          | .ok source =>
              let (model, p) := source.install .empty
              match model.checkRefs p with
              | .error fault => return .error (.inconsistent model fault)
              | .ok () => return .ok (model, p)

/-! ## The report -/

/-- Where the report goes. -/
inductive Destination where
  | standard
  | file (path : Files.Path)
deriving DecidableEq, Repr

/-- The destination that an option names. -/
def Arguments.destination (homes : Files.Homes) (a : Arguments) : Except Crash Destination :=
  match a.output with
  | none => .ok .standard
  | some .nothing => .error .outputNotText
  | some (.text name) =>
      if name = "-" then .ok .standard
      else
        match (Files.Path.parse name).expandUser homes with
        | .error fault => .error (.ofHome fault)
        | .ok path => if path.hasNull then .error .nullInPath else .ok (.file path)

/-- Writes a report and a newline, and says what became of it: the text on the
standard output or a failure. -/
def deliver {m : Type → Type} [Monad m] (files : Files.System m) (destination : Destination)
    (text : String) : m (Except Files.Fault String) := do
  match destination with
  | .standard => return .ok (text ++ "\n")
  | .file path =>
      match ← files.write path (text ++ "\n").toUTF8.toList with
      | .ok () => return .ok ""
      | .error fault => return .error fault

/-- What is known about the stream of a destination. -/
def Destination.stream (surroundings : Surroundings) : Destination → Stream
  | standard => surroundings.output
  | file _ => .other

/-! ## Runs -/

/-- Runs the query of a program and writes the report. -/
def report {m : Type → Type} [Monad m] (files : Files.System m) (surroundings : Surroundings)
    (a : Arguments) (options : Options) (model : Model) (p : ProgramId) :
    m (Log × Except Crash (Nat × String)) := do
  let setup := Pass.setupLog options
  let outcome := Pass.run options ⟨model, #[]⟩ p none (2 ≤ a.verbosity)
  let log := setup ++ outcome.log
  match outcome.result with
  | .error _ => return (log, .ok (1, ""))
  | .ok result =>
      match a.destination surroundings.homes with
      | .error crash => return (log, .error crash)
      | .ok destination =>
          let color :=
            usesColor (destination.stream surroundings) options.color surroundings.colorForbidden
          let report := result.render model surroundings.painter options.format color
          match ← deliver files destination report.text with
          | .ok output => return (log ++ report.log, .ok (0, output))
          | .error fault => return (log ++ [errorLine fault.message], .ok (2, ""))

/-- Runs with given arguments: the lines of the log, and the exit code with the
text on the standard output. -/
def execute {m : Type → Type} [Monad m] (files : Files.System m) (surroundings : Surroundings)
    (a : Arguments) : m (Log × Except Crash (Nat × String)) := do
  if a.optionsPath?.any (·.hasNull) then return ([], .error .nullInPath)
  let (log, loaded) ← loadOptions files surroundings.nesting a
  match loaded with
  | .error (.notUtf8 fault) => return (log, .error (.optionsNotUtf8 fault))
  | .error (.tooManyDigits count) => return (log, .error (.optionsTooManyDigits count))
  | .error (.tooDeep kind) => return (log, .error (.optionsTooDeep kind))
  | .error fault => return (log ++ [errorLine fault.message], .ok (2, ""))
  | .ok options =>
      match a.modelPath surroundings.homes with
      | .error crash => return (log, .error crash)
      | .ok path =>
          match ← openModel files surroundings.format path with
          | .error failure =>
              return (log ++ [errorLine failure.message], .ok (failure.exitCode, ""))
          | .ok (model, p) =>
              let (more, ending) ← report files surroundings a options model p
              return (log ++ more, ending)

/-- Runs the command line. -/
def run {m : Type → Type} [Monad m] (files : Files.System m) (surroundings : Surroundings)
    (arguments : List String) : m (Except Crash Outcome) := do
  match parse arguments with
  | .error .help => return .ok ⟨0, helpText, "", []⟩
  | .error .version => return .ok ⟨0, versionText, "", []⟩
  | .error (.fault fault) =>
      return .ok ⟨2, "", usage ++ programName ++ ": error: " ++ fault.message ++ "\n", []⟩
  | .ok a =>
      let (log, ending) ← execute files surroundings a
      match ending with
      | .error crash => return .error crash
      | .ok (exitCode, output) =>
          return .ok ⟨exitCode, output, "", log.atLeast (shownLevel a.verbosity)⟩

end CallReach.CommandLine
