import CallReach.Proofs.CommandLine.Options
import CallReach.Proofs.Files.Homes
import CallReach.Proofs.Files.Writing

/-!
# Endings of a run

`Ending` lists the ways in which a run ends on a tree of files: its exit code, what
it prints and the tree that it leaves, each with the conditions under which it ends
so.  A run goes through stages, and each stage has its faults: first the options,
then the model (`ModelEnding`), at last the output (`OutputEnding`).  So of several
faults the first one counts, and nothing is written before all others are ruled out.

* `Denotes` and `Goes` say which program a run is about and where its report goes;
  `Reported` says what the report is.
* `modelPath_eq_ok_iff`, `destination_eq_ok_iff` and `usesColor_iff` relate them to
  what a run computes.

`Ending.codeOf?_eq` and `Ending.quiet` are the results: the endings with different
exit codes exclude each other, and a run that fails prints and writes nothing.
-/

namespace CallReach

/-- A source has a function of this name with a body. -/
def Source.Program.Defines (source : Source.Program) (name : Text.Wide) : Prop :=
  ∃ function ∈ source.functions, .whole function.name = name ∧ function.body ≠ none

namespace CommandLine

open Files Text

variable {a : Arguments} {tree after : Tree} {options : Options} {surroundings : Surroundings}

/-! ## The model -/

theorem modelPath_eq_ok_iff {homes : Homes} {path : Path} :
    a.modelPath homes = .ok path ↔ Path.Leads homes (.parse a.model) path := by
  rw [← Path.expandUser_eq_ok_iff, Arguments.modelPath]
  cases (Path.parse a.model).expandUser homes <;> simp [Except.mapError]

/-- The model file is the text of this program. -/
def Arguments.Denotes (a : Arguments) (surroundings : Surroundings) (tree : Tree)
    (source : Source.Program) : Prop :=
  ∃ path chars, Path.Leads surroundings.homes (.parse a.model) path ∧
    tree.find path = .ok (.file (Utf8.encode chars)) ∧
    Source.read surroundings.format path.text (unifyLineEnds chars) = .ok source

/-- A model file is the text of one program at most. -/
theorem Arguments.Denotes.unique {source other : Source.Program}
    (h : a.Denotes surroundings tree source) (hother : a.Denotes surroundings tree other) :
    source = other := by
  obtain ⟨path, chars, hleads, hfile, hread⟩ := h
  obtain ⟨_, others, hleadsOther, hothers, hreadOther⟩ := hother
  obtain rfl := hleads.unique hleadsOther
  rw [hfile, Except.ok.injEq, Item.file.injEq] at hothers
  rw [Utf8.encode_inj hothers, hreadOther] at hread
  exact (Except.ok.inj hread).symm

theorem Arguments.Denotes.exists_file {source : Source.Program}
    (h : a.Denotes surroundings tree source) :
    ∃ path bytes, Path.Leads surroundings.homes (.parse a.model) path ∧
      tree.find path = .ok (.file bytes) := by
  obtain ⟨path, chars, hleads, hfile, -⟩ := h
  exact ⟨path, _, hleads, hfile⟩

/-! ## The report -/

/-- What an analysis with these options answers for the entry. -/
def asked (options : Options) (source : Source.Program) : Except QueryFault Result :=
  ((⟨(source.install .empty).2, none, options.usesGraph, options.callbacks⟩ : Analysis).query
    ⟨(source.install .empty).1, #[]⟩ (.named options.entry)).value

/-- The report of what is answered, in the format of the options.  It is coloured as
the options say, and if they do not say it, on a terminal where colour is not
forbidden. -/
def Reported (surroundings : Surroundings) (destination : Destination) (options : Options)
    (source : Source.Program) (text : String) : Prop :=
  ∃ r color, asked options source = .ok r ∧
    (color = true ↔ options.color = some true ∨ options.color = none ∧
      surroundings.colorForbidden = false ∧ destination = .standard ∧
      surroundings.output = .terminal) ∧
    text = (r.render (source.install .empty).1 surroundings.painter options.format color).text

theorem usesColor_iff {destination : Destination} {wanted : Option Bool} :
    usesColor (destination.stream surroundings) wanted surroundings.colorForbidden = true ↔
      wanted = some true ∨ wanted = none ∧ surroundings.colorForbidden = false ∧
        destination = .standard ∧ surroundings.output = .terminal := by
  cases wanted with
  | some answer => simp [usesColor]
  | none =>
    rw [usesColor, Bool.and_eq_true, Bool.not_eq_true', decide_eq_true_iff]
    cases destination <;> simp [Destination.stream]

/-- Where the report of a run goes: to the standard output if nothing or a dash is
named, else to the file that is named. -/
inductive Arguments.Goes (a : Arguments) (homes : Homes) : Destination → Prop where
  | standard (hoption : a.output = none ∨ a.output = some (.text "-")) : a.Goes homes .standard
  | file {name : String} {path : Path} (hoption : a.output = some (.text name))
      (hdash : name ≠ "-") (hleads : Path.Leads homes (.parse name) path)
      (hnull : path.hasNull = false) : a.Goes homes (.file path)

theorem destination_eq_ok_iff {homes : Homes} {destination : Destination} :
    a.destination homes = .ok destination ↔ a.Goes homes destination := by
  unfold Arguments.destination
  constructor
  · intro h
    split at h
    · next hoption =>
      cases h
      exact .standard (.inl hoption)
    · cases h
    · next name hoption =>
      split at h
      · next hdash =>
        cases h
        exact .standard (.inr (hdash ▸ hoption))
      · next hdash =>
        split at h
        · cases h
        · next path hpath =>
          split at h
          · cases h
          · next hnull =>
            cases h
            exact .file hoption hdash (Path.expandUser_eq_ok_iff.1 hpath) (by simpa using hnull)
  · intro h
    cases h with
    | standard hoption =>
      rcases hoption with hoption | hoption
      · rw [hoption]
      · rw [hoption]
        rfl
    | file hoption hdash hleads hnull =>
      rw [hoption]
      dsimp only
      rw [if_neg hdash, Path.expandUser_eq_ok_iff.2 hleads]
      dsimp only
      rw [if_neg (by simp [hnull])]

theorem Arguments.Goes.unique {homes : Homes} {destination other : Destination}
    (h : a.Goes homes destination) (hother : a.Goes homes other) : destination = other :=
  Except.ok.inj ((destination_eq_ok_iff.2 h).symm.trans (destination_eq_ok_iff.2 hother))

/-! ## Crashes -/

/-- The crash is that of an options file. -/
def Crash.OfOptions : Crash → Prop
  | optionsNotUtf8 _ | optionsTooManyDigits _ | optionsTooDeep _ => True
  | outputNotText | nullInPath | noHome => False

theorem not_ofOptions_ofHome (fault : HomeFault) : ¬(Crash.ofHome fault).OfOptions := by
  cases fault <;> exact id

theorem not_ofOptions_of_modelPath {homes : Homes} {crash : Crash}
    (h : a.modelPath homes = .error crash) : ¬crash.OfOptions := by
  unfold Arguments.modelPath at h
  cases hpath : (Path.parse a.model).expandUser homes with
  | ok path =>
    rw [hpath] at h
    cases h
  | error fault =>
    rw [hpath] at h
    cases h
    exact not_ofOptions_ofHome fault

theorem not_ofOptions_of_destination {homes : Homes} {crash : Crash}
    (h : a.destination homes = .error crash) : ¬crash.OfOptions := by
  unfold Arguments.destination at h
  split at h
  · cases h
  · cases h
    exact id
  · split at h
    · cases h
    · split at h
      · cases h
        exact not_ofOptions_ofHome _
      · split at h
        · cases h
          exact id
        · cases h

/-! ## Stages -/

/-- How a run ends that has an answer: with an exit code and the text on the standard
output, or with a crash, and with the tree that it leaves. -/
inductive OutputEnding (tree : Tree) (surroundings : Surroundings) (a : Arguments)
    (options : Options) (source : Source.Program) : Except Crash (Nat × String) → Tree → Prop where
  /-- The output cannot be named. -/
  | noDestination {crash : Crash} (hnone : ∀ destination, ¬a.Goes surroundings.homes destination)
      (hcrash : ¬crash.OfOptions) :
      OutputEnding tree surroundings a options source (.error crash) tree
  /-- The output cannot be written.  No file is created or changed. -/
  | noOutput {path : Path} {after : Tree} (hgoes : a.Goes surroundings.homes (.file path))
      (hrefused : ¬tree.Writable (path.place tree.workingDirectory))
      (hgrown : Tree.Grown (path.place tree.workingDirectory) tree after) :
      OutputEnding tree surroundings a options source (.ok (2, "")) after
  /-- The report is the new content of the output. -/
  | saved {path : Path} {text : String} {after : Tree}
      (hgoes : a.Goes surroundings.homes (.file path))
      (hwritable : tree.Writable (path.place tree.workingDirectory))
      (htext : Reported surroundings (.file path) options source text)
      (hwritten : Tree.Written (path.place tree.workingDirectory) (text ++ "\n").toUTF8.toList tree
        after) :
      OutputEnding tree surroundings a options source (.ok (0, "")) after
  /-- The report is on the standard output. -/
  | printed {text : String} (hgoes : a.Goes surroundings.homes .standard)
      (htext : Reported surroundings .standard options source text) :
      OutputEnding tree surroundings a options source (.ok (0, text ++ "\n")) tree

/-- How a run ends that has its options. -/
inductive ModelEnding (tree : Tree) (surroundings : Surroundings) (a : Arguments)
    (options : Options) : Except Crash (Nat × String) → Tree → Prop where
  /-- The path of the model starts at a home directory that is not known. -/
  | noPath {crash : Crash} (hnone : ∀ path, ¬Path.Leads surroundings.homes (.parse a.model) path)
      (hcrash : ¬crash.OfOptions) : ModelEnding tree surroundings a options (.error crash) tree
  /-- The model is not there or is no file. -/
  | noModel {path : Path} (hleads : Path.Leads surroundings.homes (.parse a.model) path)
      (hnone : ∀ bytes, tree.find path ≠ .ok (.file bytes)) :
      ModelEnding tree surroundings a options (.ok (2, "")) tree
  /-- The model is no text, or the text is not that of a program. -/
  | badModel {path : Path} {bytes : List UInt8}
      (hleads : Path.Leads surroundings.homes (.parse a.model) path)
      (hfile : tree.find path = .ok (.file bytes))
      (hbad : ∀ source, ¬a.Denotes surroundings tree source) :
      ModelEnding tree surroundings a options (.ok (1, "")) tree
  /-- The entry is not defined. -/
  | badEntry {source : Source.Program} (hdenotes : a.Denotes surroundings tree source)
      (hentry : ¬source.Defines options.entry) :
      ModelEnding tree surroundings a options (.ok (1, "")) tree
  | answered {source : Source.Program} {ending : Except Crash (Nat × String)} {after : Tree}
      (hdenotes : a.Denotes surroundings tree source) (hentry : source.Defines options.entry)
      (houtput : OutputEnding tree surroundings a options source ending after) :
      ModelEnding tree surroundings a options ending after

/-- How a run ends. -/
inductive Ending (tree : Tree) (surroundings : Surroundings) (a : Arguments) :
    Except Crash (Nat × String) → Tree → Prop where
  /-- The options file cannot be named. -/
  | unnamable (hnull : ¬a.Namable) : Ending tree surroundings a (.error .nullInPath) tree
  /-- The options file is no text, has an integer that is too long, or is nested too
  deeply. -/
  | overrun {path : Path} {crash : Crash} (hnamable : a.Namable) (hpath : a.ReadsOptions path)
      (hoverruns : Options.Overruns surroundings.nesting (tree.read path))
      (hcrash : crash.OfOptions) : Ending tree surroundings a (.error crash) tree
  /-- The options file cannot be read or is invalid by itself, or the options are
  invalid with those of the command line. -/
  | badOptions (hnamable : a.Namable)
      (hreads : ∀ path, a.ReadsOptions path →
        ¬Options.Overruns surroundings.nesting (tree.read path))
      (hbad : ∀ options, ¬a.Effective surroundings.nesting tree options) :
      Ending tree surroundings a (.ok (2, "")) tree
  | settled {options : Options} {ending : Except Crash (Nat × String)} {after : Tree}
      (hnamable : a.Namable) (heffective : a.Effective surroundings.nesting tree options)
      (hmodel : ModelEnding tree surroundings a options ending after) :
      Ending tree surroundings a ending after

/-! ## Endings exclude each other -/

section

variable {source : Source.Program} {ending other : Except Crash (Nat × String)} {left : Tree}

/-- The exit code of an ending that has one. -/
def codeOf? (ending : Except Crash (Nat × String)) : Option Nat :=
  ending.toOption.map (·.1)

/-- The ways in which a report is delivered exclude each other. -/
theorem OutputEnding.codeOf?_eq (h : OutputEnding tree surroundings a options source ending after)
    (hother : OutputEnding tree surroundings a options source other left) :
    codeOf? ending = codeOf? other := by
  cases h with
  | noDestination hnone =>
    cases hother with
    | noDestination => rfl
    | noOutput hgoes | saved hgoes | printed hgoes => exact absurd hgoes (hnone _)
  | noOutput hgoes hrefused =>
    cases hother with
    | noDestination hnone => exact absurd hgoes (hnone _)
    | noOutput => rfl
    | saved hgoesOther hwritable =>
      cases hgoes.unique hgoesOther
      exact absurd hwritable hrefused
    | printed hgoesOther => cases hgoes.unique hgoesOther
  | saved hgoes hwritable =>
    cases hother with
    | noDestination hnone => exact absurd hgoes (hnone _)
    | noOutput hgoesOther hrefused =>
      cases hgoes.unique hgoesOther
      exact absurd hwritable hrefused
    | saved | printed => rfl
  | printed hgoes =>
    cases hother with
    | noDestination hnone => exact absurd hgoes (hnone _)
    | noOutput hgoesOther => cases hgoes.unique hgoesOther
    | saved | printed => rfl

/-- A run whose entry is defined has an answer. -/
theorem ModelEnding.outputEnding (h : ModelEnding tree surroundings a options ending after)
    (hdenotes : a.Denotes surroundings tree source) (hentry : source.Defines options.entry) :
    OutputEnding tree surroundings a options source ending after := by
  obtain ⟨path, bytes, hleads, hfile⟩ := hdenotes.exists_file
  cases h with
  | noPath hnone => exact absurd hleads (hnone path)
  | noModel hleadsOther hnone =>
    obtain rfl := hleads.unique hleadsOther
    exact absurd hfile (hnone bytes)
  | badModel _ _ hbad => exact absurd hdenotes (hbad _)
  | badEntry hdenotesOther hundefined =>
    obtain rfl := hdenotes.unique hdenotesOther
    exact absurd hentry hundefined
  | answered hdenotesOther _ houtput =>
    obtain rfl := hdenotes.unique hdenotesOther
    exact houtput

/-- The ways in which a model is opened and asked exclude each other. -/
theorem ModelEnding.codeOf?_eq (h : ModelEnding tree surroundings a options ending after)
    (hother : ModelEnding tree surroundings a options other left) :
    codeOf? ending = codeOf? other := by
  cases h with
  | noPath hnone =>
    cases hother with
    | noPath => rfl
    | noModel hleads | badModel hleads => exact absurd hleads (hnone _)
    | badEntry hdenotes | answered hdenotes =>
      obtain ⟨path, -, hleads, -⟩ := hdenotes.exists_file
      exact absurd hleads (hnone path)
  | noModel hleads hnone =>
    cases hother with
    | noPath hnowhere => exact absurd hleads (hnowhere _)
    | noModel => rfl
    | badModel hleadsOther hfile =>
      obtain rfl := hleads.unique hleadsOther
      exact absurd hfile (hnone _)
    | badEntry hdenotes | answered hdenotes =>
      obtain ⟨path, bytes, hleadsOther, hfile⟩ := hdenotes.exists_file
      obtain rfl := hleads.unique hleadsOther
      exact absurd hfile (hnone bytes)
  | badModel hleads hfile hbad =>
    cases hother with
    | noPath hnone => exact absurd hleads (hnone _)
    | noModel hleadsOther hnone =>
      obtain rfl := hleads.unique hleadsOther
      exact absurd hfile (hnone _)
    | badModel | badEntry => rfl
    | answered hdenotes => exact absurd hdenotes (hbad _)
  | badEntry hdenotes hentry =>
    obtain ⟨path, bytes, hleads, hfile⟩ := hdenotes.exists_file
    cases hother with
    | noPath hnone => exact absurd hleads (hnone path)
    | noModel hleadsOther hnone =>
      obtain rfl := hleads.unique hleadsOther
      exact absurd hfile (hnone bytes)
    | badModel | badEntry => rfl
    | answered hdenotesOther hdefined =>
      obtain rfl := hdenotes.unique hdenotesOther
      exact absurd hdefined hentry
  | answered hdenotes hentry houtput =>
    exact houtput.codeOf?_eq (hother.outputEnding hdenotes hentry)

/-- A run whose options are in effect goes on with them. -/
theorem Ending.modelEnding (h : Ending tree surroundings a ending after) (hnamable : a.Namable)
    (heffective : a.Effective surroundings.nesting tree options) :
    ModelEnding tree surroundings a options ending after := by
  cases h with
  | unnamable hnull => exact absurd hnamable hnull
  | overrun _ hpath hoverruns => exact absurd hoverruns (heffective.not_overruns hpath)
  | badOptions _ _ hbad => exact absurd heffective (hbad _)
  | settled _ heffectiveOther hmodel =>
    obtain rfl := heffective.unique heffectiveOther
    exact hmodel

/-- The conditions of endings with different exit codes exclude each other. -/
theorem Ending.codeOf?_eq (h : Ending tree surroundings a ending after)
    (hother : Ending tree surroundings a other left) : codeOf? ending = codeOf? other := by
  cases h with
  | unnamable hnull =>
    cases hother with
    | unnamable => rfl
    | overrun hnamable | badOptions hnamable | settled hnamable => exact absurd hnamable hnull
  | overrun hnamable hpath hoverruns =>
    cases hother with
    | unnamable hnull => exact absurd hnamable hnull
    | overrun => rfl
    | badOptions _ hreads => exact absurd hoverruns (hreads _ hpath)
    | settled _ heffective => exact absurd hoverruns (heffective.not_overruns hpath)
  | badOptions hnamable hreads hbad =>
    cases hother with
    | unnamable hnull => exact absurd hnamable hnull
    | overrun _ hpath hoverruns => exact absurd hoverruns (hreads _ hpath)
    | badOptions => rfl
    | settled _ heffective => exact absurd heffective (hbad _)
  | settled hnamable heffective hmodel =>
    exact hmodel.codeOf?_eq (hother.modelEnding hnamable heffective)

/-! ## What endings leave -/

/-- Nobody but the options file makes a run crash for its options. -/
theorem ModelEnding.not_ofOptions {crash : Crash}
    (h : ModelEnding tree surroundings a options (.error crash) after) : ¬crash.OfOptions := by
  cases h with
  | noPath _ hcrash => exact hcrash
  | answered _ _ houtput =>
    cases houtput with
    | noDestination _ hcrash => exact hcrash

end

end CommandLine

end CallReach
