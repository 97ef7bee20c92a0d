import Mathlib.Data.List.Induction
import CallReach.Proofs.CommandLine.Words

/-!
# What a command line says

An accepted command line is a sequence of clauses: the path of the model, options that
are switched on, and options with a value.  `Says` is the grammar of such lines, and
`Settles` says what run the clauses ask for: of several values of an option the last one
counts, and a switch counts wherever it stands.

* `Says.exists_takeWords` and `says_of_takeWords` relate the grammar to the words that are
  taken one after the other.
* `settles_of_takeAll` and `exists_takeAll` follow the clauses from left to right.

`parse_eq_ok_iff` is the result: exactly the lines of the grammar are accepted, and
they give the run that they ask for.
-/

namespace CallReach.CommandLine

/-! ## Clauses -/

/-- What a part of a command line says. -/
inductive Clause where
  | model (path : String)
  /-- An option without a value. -/
  | switch (flag : Flag)
  | assign (flag : Flag) (value : Value)
deriving DecidableEq, Repr

namespace Clause

/-- The path of the model, if the clause names it. -/
def model? : Clause → Option String
  | model path => some path
  | _ => none

/-- The value of an option, if the clause gives it. -/
def value? (flag : Flag) : Clause → Option Value
  | assign other value => if other = flag then some value else none
  | _ => none

end Clause

/-- The clauses of a command line.  An option that takes a value has it attached or as
the next argument, which is plain.  Two dashes may stand before the model or after it,
and then nothing else follows. -/
inductive Says : List String → List Clause → Prop where
  | nil : Says [] []
  | model {argument : String} {rest : List String} {clauses : List Clause}
      (hplain : Plain argument) (hrest : Says rest clauses) :
      Says (argument :: rest) (.model argument :: clauses)
  | switch {argument : String} {before : List Flag} {last : Flag} {rest : List String}
      {clauses : List Clause} (hword : OptionWord argument ⟨before, last, none⟩)
      (hswitch : last.takesValue = false) (hrest : Says rest clauses) :
      Says (argument :: rest) (before.map .switch ++ .switch last :: clauses)
  | attached {argument : String} {before : List Flag} {last : Flag} {value : Value}
      {rest : List String} {clauses : List Clause}
      (hword : OptionWord argument ⟨before, last, some value⟩) (hrest : Says rest clauses) :
      Says (argument :: rest) (before.map .switch ++ .assign last value :: clauses)
  | detached {argument next : String} {before : List Flag} {last : Flag} {rest : List String}
      {clauses : List Clause} (hword : OptionWord argument ⟨before, last, none⟩)
      (htakes : last.takesValue = true) (hplain : Plain next) (hrest : Says rest clauses) :
      Says (argument :: next :: rest) (before.map .switch ++ .assign last (.text next) :: clauses)
  | dashedModel (path : String) : Says ["--", path] [.model path]
  | modelDashed {path : String} (hplain : Plain path) : Says [path, "--"] [.model path]

/-- The last value that clauses give to an option. -/
def lastValue? (clauses : List Clause) (flag : Flag) : Option Value :=
  (clauses.filterMap (Clause.value? flag)).getLast?

/-- The options that clauses ask for, apart from the model. -/
structure Settles (clauses : List Clause) (a : Arguments) : Prop where
  entry : a.entry = lastValue? clauses .entry
  format : a.format = lastValue? clauses .format
  config : a.config = lastValue? clauses .config
  output : a.output = lastValue? clauses .output
  noCallgraph : a.noCallgraph = true ↔ .switch .noCallgraph ∈ clauses
  noCallbacks : a.noCallbacks = true ↔ .switch .noCallbacks ∈ clauses
  /-- Colour is switched on or off, and not both. -/
  color : a.color = some true ↔ .switch .color ∈ clauses
  noColor : a.color = some false ↔ .switch .noColor ∈ clauses
  verbosity : a.verbosity = clauses.count (.switch .verbose)
  /-- Formats are named by their names. -/
  known : ∀ name, .assign .format (.text name) ∈ clauses →
    ∃ format : ReportFormat, format.name = name
  /-- Nobody asks for the help or the version. -/
  runs : .switch .help ∉ clauses ∧ .switch .version ∉ clauses

/-- The command line asks for this run. -/
def Commands (arguments : List String) (a : Arguments) : Prop :=
  ∃ clauses, Says arguments clauses ∧ clauses.filterMap Clause.model? = [a.model] ∧
    Settles clauses a

/-! ## From left to right -/

/-- Takes one clause. -/
def Arguments.take (a : Arguments) : Clause → Except Stop Arguments
  | .model _ => .ok a
  | .switch flag => a.switch flag
  | .assign flag value => a.assign flag value

/-- Takes clauses from left to right. -/
def Arguments.takeAll (a : Arguments) (clauses : List Clause) : Except Stop Arguments :=
  clauses.foldlM Arguments.take a

variable {a b : Arguments} {clauses : List Clause} {clause : Clause}

theorem isSome_ofName?_iff {name : String} :
    (ReportFormat.ofName? name).isSome = true ↔
      ∃ format : ReportFormat, format.name = name := by
  simp only [ReportFormat.ofName?, List.find?_isSome, decide_eq_true_eq]
  constructor
  · rintro ⟨format, -, hname⟩
    exact ⟨format, hname⟩
  · rintro ⟨format, hname⟩
    exact ⟨format, by cases format <;> decide, hname⟩

theorem lastValue?_concat (flag : Flag) :
    lastValue? (clauses ++ [clause]) flag = (clause.value? flag).or (lastValue? clauses flag) := by
  simp only [lastValue?, List.filterMap_append, List.getLast?_append]
  cases hvalue : clause.value? flag <;> simp [hvalue]

/-- A format is taken if it is one, and nothing is always taken. -/
theorem assign_format_eq_ok_iff {value : Value} :
    a.assign .format value = .ok b ↔
      (∀ name, value = .text name → ∃ format : ReportFormat, format.name = name) ∧
        { a with format := some value } = b := by
  cases value with
  | nothing => simp [Arguments.assign]
  | text name =>
    simp only [Arguments.assign, Value.text.injEq, forall_eq', ← isSome_ofName?_iff]
    split
    · next hknown => simp [hknown]
    · next hunknown => simp [hunknown]

/-- What one more clause adds. -/
theorem Settles.take (h : Settles clauses a) (htake : a.take clause = .ok b) :
    Settles (clauses ++ [clause]) b := by
  obtain ⟨hentry, hformat, hconfig, houtput, hgraph, hcallbacks, hcolor, hnoColor, hverbosity,
    hknown, hhelp, hversion⟩ := h
  cases clause with
  | model path =>
    cases htake
    constructor
    case known => simpa using hknown
    all_goals simp [lastValue?_concat, Clause.value?, *]
  | switch flag =>
    cases flag with
    | help | version | entry | format | config | output => cases htake
    | noCallgraph | noCallbacks | verbose =>
      cases htake
      constructor
      case known => simpa using hknown
      all_goals simp [lastValue?_concat, Clause.value?, *]
    | color =>
      simp only [Arguments.take, Arguments.switch] at htake
      split at htake
      · cases htake
      · next hon =>
        cases htake
        constructor
        case known => simpa using hknown
        case noColor => simpa using fun hmem => hon (hnoColor.2 hmem)
        all_goals simp [lastValue?_concat, Clause.value?, *]
    | noColor =>
      simp only [Arguments.take, Arguments.switch] at htake
      split at htake
      · cases htake
      · next hoff =>
        cases htake
        constructor
        case known => simpa using hknown
        case color => simpa using fun hmem => hoff (hcolor.2 hmem)
        all_goals simp [lastValue?_concat, Clause.value?, *]
  | assign flag value =>
    cases flag with
    | help | version | noCallgraph | noCallbacks | color | noColor | verbose => cases htake
    | entry | config | output =>
      cases htake
      constructor
      case known => simpa using hknown
      all_goals simp [lastValue?_concat, Clause.value?, *]
    | format =>
      obtain ⟨hname, rfl⟩ := assign_format_eq_ok_iff.1 htake
      constructor
      case known =>
        intro name hmem
        rcases List.mem_append.1 hmem with hmem | hmem
        · exact hknown name hmem
        · exact hname name (by simpa using (List.mem_singleton.1 hmem).symm)
      all_goals simp [lastValue?_concat, Clause.value?, *]

theorem settles_start : Settles [] Progress.start.arguments := by
  constructor <;> simp [Progress.start, lastValue?]

/-- What all clauses make of a run. -/
theorem settles_of_takeAll (h : Progress.start.arguments.takeAll clauses = .ok b) :
    Settles clauses b := by
  induction clauses using List.reverseRecOn generalizing b with
  | nil =>
    cases h
    exact settles_start
  | append_singleton clauses clause ih =>
    rw [Arguments.takeAll, List.foldlM_append, bind_eq_ok_iff] at h
    obtain ⟨a, hclauses, hclause⟩ := h
    refine (ih hclauses).take ?_
    simpa using hclause

/-! ## Clauses that can be taken -/

/-- Options have a value when they take one. -/
def Clause.Fits : Clause → Prop
  | model _ => True
  | switch flag => flag.takesValue = false
  | assign flag _ => flag.takesValue = true

/-- Nothing in the clauses stops a run. -/
structure Allowed (clauses : List Clause) : Prop where
  fits : ∀ clause ∈ clauses, clause.Fits
  known : ∀ name, .assign .format (.text name) ∈ clauses →
    ∃ format : ReportFormat, format.name = name
  runs : .switch .help ∉ clauses ∧ .switch .version ∉ clauses
  color : .switch .color ∈ clauses → .switch .noColor ∉ clauses

theorem Allowed.mono {more : List Clause} (h : Allowed more) (hsub : clauses ⊆ more) :
    Allowed clauses where
  fits clause hclause := h.fits clause (hsub hclause)
  known name hname := h.known name (hsub hname)
  runs := ⟨fun hmem => h.runs.1 (hsub hmem), fun hmem => h.runs.2 (hsub hmem)⟩
  color hon hoff := h.color (hsub hon) (hsub hoff)

theorem Settles.allowed (h : Settles clauses a) (hfits : ∀ clause ∈ clauses, clause.Fits) :
    Allowed clauses where
  fits := hfits
  known := h.known
  runs := h.runs
  color hon hoff := by simpa [h.color.2 hon] using h.noColor.2 hoff

/-- One more clause is taken if nothing stops a run. -/
theorem Settles.exists_take (h : Settles clauses a) (hallowed : Allowed (clauses ++ [clause])) :
    ∃ b, a.take clause = .ok b := by
  have hlast : clause ∈ clauses ++ [clause] := by simp
  have hfits := hallowed.fits clause hlast
  cases clause with
  | model path => exact ⟨a, rfl⟩
  | switch flag =>
    cases flag with
    | entry | format | config | output => cases hfits
    | help => exact absurd hlast hallowed.runs.1
    | version => exact absurd hlast hallowed.runs.2
    | noCallgraph | noCallbacks | verbose => exact ⟨_, rfl⟩
    | color =>
      have hon : a.color ≠ some false := fun hoff =>
        hallowed.color hlast (List.mem_append_left _ (h.noColor.1 hoff))
      exact ⟨_, if_neg hon⟩
    | noColor =>
      have hoff : a.color ≠ some true := fun hon =>
        hallowed.color (List.mem_append_left _ (h.color.1 hon)) hlast
      exact ⟨_, if_neg hoff⟩
  | assign flag value =>
    cases flag with
    | help | version | noCallgraph | noCallbacks | color | noColor | verbose => cases hfits
    | entry | config | output => exact ⟨_, rfl⟩
    | format =>
      refine ⟨_, assign_format_eq_ok_iff.2 ⟨?_, rfl⟩⟩
      rintro name rfl
      exact hallowed.known name hlast

theorem exists_takeAll (h : Allowed clauses) :
    ∃ b, Progress.start.arguments.takeAll clauses = .ok b := by
  induction clauses using List.reverseRecOn with
  | nil => exact ⟨_, rfl⟩
  | append_singleton clauses clause ih =>
    obtain ⟨a, hclauses⟩ := ih (h.mono (List.subset_append_left _ _))
    obtain ⟨b, hclause⟩ := (settles_of_takeAll hclauses).exists_take h
    refine ⟨b, ?_⟩
    rw [Arguments.takeAll, List.foldlM_append, bind_eq_ok_iff]
    exact ⟨a, hclauses, by simpa using hclause⟩

/-- Clauses ask for one run. -/
theorem Settles.unique (h : Settles clauses a) (hother : Settles clauses b)
    (hmodel : a.model = b.model) : a = b := by
  have hcolor : a.color = b.color := Option.ext fun wanted => by
    cases wanted with
    | true => exact h.color.trans hother.color.symm
    | false => exact h.noColor.trans hother.noColor.symm
  have hgraph := Bool.eq_iff_iff.2 (h.noCallgraph.trans hother.noCallgraph.symm)
  have hcallbacks := Bool.eq_iff_iff.2 (h.noCallbacks.trans hother.noCallbacks.symm)
  have hentry := h.entry.trans hother.entry.symm
  have hformat := h.format.trans hother.format.symm
  have hconfig := h.config.trans hother.config.symm
  have houtput := h.output.trans hother.output.symm
  have hverbosity := h.verbosity.trans hother.verbosity.symm
  obtain ⟨⟩ := a
  obtain ⟨⟩ := b
  simp_all only

/-! ## Words -/

variable {arguments : List String} {word : Word} {words : List Word}

theorem classifyAll_eq_cons_iff :
    classifyAll arguments = .ok (word :: words) ↔ ∃ argument rest, arguments = argument :: rest ∧
      (argument = "--" ∧ word = .dashes ∧ words = rest.map .plain ∨
        argument ≠ "--" ∧ classify argument = .ok word ∧ classifyAll rest = .ok words) := by
  cases arguments with
  | nil => simp [classifyAll]
  | cons argument rest =>
    simp only [List.cons.injEq, classifyAll]
    by_cases hdashes : argument = "--"
    · simp [hdashes, eq_comm]
    · simp [hdashes, bind_eq_ok_iff, pure, Except.pure]

theorem eq_nil_of_classifyAll (h : classifyAll arguments = .ok []) : arguments = [] := by
  cases arguments with
  | nil => rfl
  | cons argument rest =>
    rw [classifyAll] at h
    split at h
    · cases h
    · simp [bind_eq_ok_iff, pure, Except.pure] at h

/-- Two dashes are no other word. -/
theorem classify_dashes_ne_ok : classify "--" ≠ .ok word := by
  intro h
  have hfault : (classify "--").isOk = false := by decide
  rw [h] at hfault
  cases hfault

theorem classify_ne_dashes {argument : String} : classify argument ≠ .ok .dashes := by
  unfold classify
  split
  · next c rest hchars =>
    dsimp only
    split
    · next word hword =>
      rintro ⟨⟩
      obtain ⟨flag, spelling, attached, -, -, ⟨⟩⟩ := spelledOut?_eq_some_iff.1 hword
    · split
      · next spelling word hcandidates =>
        rintro ⟨⟩
        have hmem : (spelling, Word.dashes) ∈ candidates ('-' :: c :: rest) := by
          simp [hcandidates]
        obtain ⟨flag, attached, -, -, ⟨⟩⟩ := mem_candidates_iff.1 hmem
      · split <;> rintro ⟨⟩
      · rintro ⟨⟩
  · rintro ⟨⟩

/-- The argument of a word that is no dashes. -/
theorem exists_of_classifyAll_cons (h : classifyAll arguments = .ok (word :: words))
    (hword : word ≠ .dashes) :
    ∃ argument rest, arguments = argument :: rest ∧ classify argument = .ok word ∧
      classifyAll rest = .ok words := by
  obtain ⟨argument, rest, rfl, ⟨-, rfl, -⟩ | ⟨-, hargument, hrest⟩⟩ := classifyAll_eq_cons_iff.1 h
  · exact absurd rfl hword
  · exact ⟨argument, rest, rfl, hargument, hrest⟩

/-- A plain word is its argument. -/
theorem exists_of_classifyAll_plain {text : String}
    (h : classifyAll arguments = .ok (.plain text :: words)) :
    ∃ rest, arguments = text :: rest ∧ Plain text ∧ classifyAll rest = .ok words := by
  obtain ⟨argument, rest, rfl, hargument, hrest⟩ := exists_of_classifyAll_cons h (by simp)
  obtain ⟨rfl, hplain⟩ := classify_eq_plain_iff.1 hargument
  exact ⟨rest, rfl, hplain, hrest⟩

/-- An option word names its options. -/
theorem exists_of_classifyAll_option {flag : Flag} {isLong : Bool} {attached : Option String}
    {joined : Joined} (h : classifyAll arguments = .ok (.option flag isLong attached :: words))
    (hjoin : join flag isLong attached = .ok joined) :
    ∃ argument rest, arguments = argument :: rest ∧ OptionWord argument joined ∧
      classifyAll rest = .ok words := by
  obtain ⟨argument, rest, rfl, hargument, hrest⟩ := exists_of_classifyAll_cons h (by simp)
  exact ⟨argument, rest, rfl, optionWord_iff.2 ⟨flag, isLong, attached, hargument, hjoin⟩, hrest⟩

/-- After two dashes all words are plain. -/
theorem exists_of_classifyAll_dashes (h : classifyAll arguments = .ok (.dashes :: words)) :
    ∃ rest, arguments = "--" :: rest ∧ words = rest.map .plain := by
  obtain ⟨argument, rest, rfl, ⟨rfl, -, hwords⟩ | ⟨-, hargument, -⟩⟩ := classifyAll_eq_cons_iff.1 h
  · exact ⟨rest, rfl, hwords⟩
  · exact absurd hargument classify_ne_dashes

/-! ## Taken words -/

variable {p q : Progress}

/-- What could not be placed is kept. -/
theorem extras_prefix (h : takeWords p words = .ok q) : p.extras <+: q.extras := by
  fun_induction takeWords p words with
  | case1 p =>
    cases h
    exact List.prefix_rfl
  | case2 p text rest _ ih => exact (List.prefix_append _ _).trans (ih h)
  | case3 p text _ rest ih => exact ih h
  | case4 p text _ rest _ ih => exact ih h
  | case5 p text rest _ ih => exact ih h
  | case6 p rest _ ih => exact (List.prefix_append _ _).trans (ih h)
  | case7 p text rest ih => exact (List.prefix_append _ _).trans (ih h)
  | case8 | case12 => cases h
  | case9 p flag isLong attached rest before last value hjoin ih =>
    obtain ⟨_, -, htake⟩ := bind_eq_ok_iff.1 h
    obtain ⟨b, -, hrest⟩ := bind_eq_ok_iff.1 htake
    exact ih b hrest
  | case10 p flag isLong attached before last hjoin rest hswitch ih =>
    obtain ⟨_, -, htake⟩ := bind_eq_ok_iff.1 h
    obtain ⟨b, -, hrest⟩ := bind_eq_ok_iff.1 htake
    exact ih b hrest
  | case11 p flag isLong attached before last hjoin text rest htakes ih =>
    obtain ⟨_, -, htake⟩ := bind_eq_ok_iff.1 h
    obtain ⟨b, -, hrest⟩ := bind_eq_ok_iff.1 htake
    exact ih b hrest

/-- Once something could not be placed, the line is not accepted. -/
theorem extras_ne_nil {text : String} {extras : List String} {model : Option String}
    (h : takeWords ⟨model, a, extras ++ [text]⟩ words = .ok q) : q.extras ≠ [] := by
  intro hnil
  have hprefix := extras_prefix h
  rw [hnil, List.prefix_nil] at hprefix
  simp at hprefix

/-- Plain words after the model are not placed. -/
theorem takeWords_map_plain (hmodel : p.model.isSome = true) (texts : List String) :
    takeWords p (texts.map .plain) = .ok { p with extras := p.extras ++ texts } := by
  induction texts generalizing p with
  | nil => simp [takeWords]
  | cons text texts ih =>
    rw [List.map_cons]
    unfold takeWords
    rw [if_pos hmodel]
    simpa using ih (p := { p with extras := p.extras ++ [text] }) hmodel

/-- Options of one argument are taken one after the other. -/
theorem takeAll_joined {before : List Flag} {c : Arguments} :
    a.takeAll (before.map .switch ++ clause :: clauses) = .ok c ↔
      ∃ switched, a.switchAll before = .ok switched ∧
        ∃ b, switched.take clause = .ok b ∧ b.takeAll clauses = .ok c := by
  simp [Arguments.takeAll, Arguments.switchAll, List.foldlM_append, List.foldlM_map,
    bind_eq_ok_iff, Arguments.take]

/-- Options name no model. -/
theorem filterMap_model?_joined (before : List Flag) (hclause : clause.model? = none) :
    (before.map Clause.switch ++ clause :: clauses).filterMap Clause.model? =
      clauses.filterMap Clause.model? := by
  rw [List.filterMap_append, List.filterMap_cons_none hclause, List.filterMap_map]
  simp [Function.comp_def, Clause.model?]

/-- An accepted line says what was taken from it. -/
theorem says_of_takeWords (hwords : classifyAll arguments = .ok words)
    (htake : takeWords p words = .ok q) (hextras : q.extras = []) :
    ∃ clauses, Says arguments clauses ∧ p.arguments.takeAll clauses = .ok q.arguments ∧
      p.model.toList ++ clauses.filterMap Clause.model? = q.model.toList := by
  fun_induction takeWords p words generalizing arguments with
  | case1 p =>
    cases htake
    obtain rfl := eq_nil_of_classifyAll hwords
    exact ⟨[], .nil, rfl, by simp⟩
  | case2 p text rest _ ih => exact absurd hextras (extras_ne_nil htake)
  | case3 p text hmodel rest ih =>
    obtain ⟨more, rfl, hplain, hmore⟩ := exists_of_classifyAll_plain hwords
    obtain ⟨others, rfl, rfl⟩ := exists_of_classifyAll_dashes hmore
    rw [takeWords_map_plain rfl, Except.ok.injEq] at htake
    obtain rfl := htake
    obtain ⟨-, rfl⟩ := List.append_eq_nil_iff.1 hextras
    refine ⟨_, .modelDashed hplain, rfl, ?_⟩
    simp [Option.not_isSome_iff_eq_none.1 hmodel, Clause.model?]
  | case4 p text hmodel rest hrest ih =>
    obtain ⟨more, rfl, hplain, hmore⟩ := exists_of_classifyAll_plain hwords
    obtain ⟨clauses, hline, hclauses, hmodels⟩ := ih hmore htake
    refine ⟨_, .model hplain hline, hclauses, ?_⟩
    simpa [Option.not_isSome_iff_eq_none.1 hmodel, Clause.model?] using hmodels
  | case5 p text rest hmodel ih =>
    obtain ⟨others, rfl, hothers⟩ := exists_of_classifyAll_dashes hwords
    obtain ⟨path, others, rfl, ⟨⟩, rfl⟩ := List.map_eq_cons_iff.1 hothers.symm
    rw [takeWords_map_plain rfl, Except.ok.injEq] at htake
    obtain rfl := htake
    obtain ⟨-, rfl⟩ := List.append_eq_nil_iff.1 hextras
    exact ⟨_, .dashedModel text, rfl, by simp [hmodel, Clause.model?]⟩
  | case6 p rest _ ih => exact absurd hextras (extras_ne_nil htake)
  | case7 p text rest ih => exact absurd hextras (extras_ne_nil htake)
  | case8 | case12 => cases htake
  | case9 p flag isLong attached rest before last value hjoin ih =>
    obtain ⟨switched, hbefore, htake⟩ := bind_eq_ok_iff.1 htake
    obtain ⟨b, hlast, htake⟩ := bind_eq_ok_iff.1 htake
    obtain ⟨argument, more, rfl, hword, hmore⟩ := exists_of_classifyAll_option hwords hjoin
    obtain ⟨clauses, hline, hclauses, hmodels⟩ := ih b hmore htake
    refine ⟨_, .attached hword hline, takeAll_joined.2 ⟨switched, hbefore, b, hlast, hclauses⟩, ?_⟩
    rwa [filterMap_model?_joined before rfl]
  | case10 p flag isLong attached before last hjoin rest hswitch ih =>
    obtain ⟨switched, hbefore, htake⟩ := bind_eq_ok_iff.1 htake
    obtain ⟨b, hlast, htake⟩ := bind_eq_ok_iff.1 htake
    obtain ⟨argument, more, rfl, hword, hmore⟩ := exists_of_classifyAll_option hwords hjoin
    obtain ⟨clauses, hline, hclauses, hmodels⟩ := ih b hmore htake
    refine ⟨_, .switch hword hswitch hline,
      takeAll_joined.2 ⟨switched, hbefore, b, hlast, hclauses⟩, ?_⟩
    rwa [filterMap_model?_joined before rfl]
  | case11 p flag isLong attached before last hjoin text rest htakes ih =>
    obtain ⟨switched, hbefore, htake⟩ := bind_eq_ok_iff.1 htake
    obtain ⟨b, hlast, htake⟩ := bind_eq_ok_iff.1 htake
    obtain ⟨argument, more, rfl, hword, hmore⟩ := exists_of_classifyAll_option hwords hjoin
    obtain ⟨more, rfl, hplain, hmore⟩ := exists_of_classifyAll_plain hmore
    obtain ⟨clauses, hline, hclauses, hmodels⟩ := ih b hmore htake
    refine ⟨_, .detached hword htakes hplain hline,
      takeAll_joined.2 ⟨switched, hbefore, b, hlast, hclauses⟩, ?_⟩
    rwa [filterMap_model?_joined before rfl]

/-! ## Lines of the grammar -/

variable {argument : String} {rest : List String}

theorem classifyAll_cons (hargument : classify argument = .ok word)
    (hrest : classifyAll rest = .ok words) :
    classifyAll (argument :: rest) = .ok (word :: words) := by
  refine classifyAll_eq_cons_iff.2 ⟨argument, rest, rfl, .inr ⟨?_, hargument, hrest⟩⟩
  rintro rfl
  exact classify_dashes_ne_ok hargument

/-- Nothing but the model follows two dashes. -/
theorem Says.eq_of_dashes (h : Says ("--" :: rest) clauses) : ∃ path, clauses = [.model path] := by
  cases h with
  | model hplain => exact absurd (classify_eq_plain_iff.2 ⟨rfl, hplain⟩) classify_dashes_ne_ok
  | switch hword | attached hword | detached hword =>
    obtain ⟨_, _, _, hdashes, -⟩ := optionWord_iff.1 hword
    exact absurd hdashes classify_dashes_ne_ok
  | dashedModel path => exact ⟨path, rfl⟩
  | modelDashed hplain =>
    exact absurd (classify_eq_plain_iff.2 ⟨rfl, hplain⟩) classify_dashes_ne_ok

theorem eq_of_toList_append {first model : Option String} {path : String} {paths : List String}
    (h : first.toList ++ path :: paths = model.toList) :
    first = none ∧ paths = [] ∧ model = some path := by
  cases first <;> cases model <;> simp_all

/-- What a line of the grammar says is taken from it. -/
theorem Says.exists_takeWords {model : Option String} (hline : Says arguments clauses)
    (htake : p.arguments.takeAll clauses = .ok b)
    (hmodel : p.model.toList ++ clauses.filterMap Clause.model? = model.toList) :
    ∃ words, classifyAll arguments = .ok words ∧ takeWords p words = .ok ⟨model, b, p.extras⟩ := by
  induction hline generalizing p with
  | nil =>
    cases htake
    obtain rfl : p.model = model := by
      simpa using congrArg List.head? hmodel
    exact ⟨[], rfl, rfl⟩
  | @model argument rest clauses hplain hrest ih =>
    obtain ⟨hnone, hmodels, rfl⟩ := eq_of_toList_append hmodel
    obtain ⟨words, hwords, htaken⟩ := ih (p := { p with model := some argument }) htake
      (by simp [hmodels])
    refine ⟨_, classifyAll_cons (classify_eq_plain_iff.2 ⟨rfl, hplain⟩) hwords, ?_⟩
    unfold takeWords
    rw [if_neg (by simp [hnone])]
    split
    · obtain ⟨others, rfl, -⟩ := exists_of_classifyAll_dashes hwords
      obtain ⟨path, rfl⟩ := hrest.eq_of_dashes
      cases hmodels
    · exact htaken
  | @switch argument before last rest clauses hword hswitch hrest ih =>
    obtain ⟨switched, hbefore, c, hlast, hclauses⟩ := takeAll_joined.1 htake
    rw [filterMap_model?_joined before rfl] at hmodel
    obtain ⟨words, hwords, htaken⟩ := ih (p := { p with arguments := c }) hclauses hmodel
    obtain ⟨flag, isLong, attached, hargument, hjoin⟩ := optionWord_iff.1 hword
    refine ⟨_, classifyAll_cons hargument hwords, ?_⟩
    unfold takeWords
    rw [hjoin]
    simp only [hswitch]
    exact bind_eq_ok_iff.2 ⟨switched, hbefore, bind_eq_ok_iff.2 ⟨c, hlast, htaken⟩⟩
  | @attached argument before last value rest clauses hword hrest ih =>
    obtain ⟨switched, hbefore, c, hlast, hclauses⟩ := takeAll_joined.1 htake
    rw [filterMap_model?_joined before rfl] at hmodel
    obtain ⟨words, hwords, htaken⟩ := ih (p := { p with arguments := c }) hclauses hmodel
    obtain ⟨flag, isLong, attached, hargument, hjoin⟩ := optionWord_iff.1 hword
    refine ⟨_, classifyAll_cons hargument hwords, ?_⟩
    unfold takeWords
    rw [hjoin]
    exact bind_eq_ok_iff.2 ⟨switched, hbefore, bind_eq_ok_iff.2 ⟨c, hlast, htaken⟩⟩
  | @detached argument next before last rest clauses hword htakes hplain hrest ih =>
    obtain ⟨switched, hbefore, c, hlast, hclauses⟩ := takeAll_joined.1 htake
    rw [filterMap_model?_joined before rfl] at hmodel
    obtain ⟨words, hwords, htaken⟩ := ih (p := { p with arguments := c }) hclauses hmodel
    obtain ⟨flag, isLong, attached, hargument, hjoin⟩ := optionWord_iff.1 hword
    have hnext := classifyAll_cons (classify_eq_plain_iff.2 ⟨rfl, hplain⟩) hwords
    refine ⟨_, classifyAll_cons hargument hnext, ?_⟩
    unfold takeWords
    rw [hjoin]
    simp only [htakes]
    exact bind_eq_ok_iff.2 ⟨switched, hbefore, bind_eq_ok_iff.2 ⟨c, hlast, htaken⟩⟩
  | dashedModel path =>
    cases htake
    obtain ⟨hnone, -, rfl⟩ := eq_of_toList_append hmodel
    refine ⟨[.dashes, .plain path], rfl, ?_⟩
    unfold takeWords
    rw [hnone]
    rfl
  | @modelDashed path hplain =>
    cases htake
    obtain ⟨hnone, -, rfl⟩ := eq_of_toList_append hmodel
    have hdashes : classifyAll ["--"] = .ok [.dashes] := rfl
    refine ⟨_, classifyAll_cons (classify_eq_plain_iff.2 ⟨rfl, hplain⟩) hdashes, ?_⟩
    unfold takeWords
    rw [if_neg (by simp [hnone])]
    rfl

/-! ## Accepted lines -/

theorem Carries.fits {flag last : Flag} {text : List Char} {before : List Flag}
    {value : Option Value} (h : Carries flag text ⟨before, last, value⟩) :
    (∀ other ∈ before, other.takesValue = false) ∧
      (value.isSome = true → last.takesValue = true) := by
  generalize hjoined : (⟨before, last, value⟩ : Joined) = joined at h
  induction h generalizing before with
  | value htakes =>
    cases hjoined
    exact ⟨by simp, fun _ => htakes⟩
  | letter hswitch =>
    cases hjoined
    exact ⟨by simpa using hswitch, by simp⟩
  | letters hswitch _ _ ih =>
    cases hjoined
    exact ⟨List.forall_mem_cons.2 ⟨hswitch, (ih rfl).1⟩, (ih rfl).2⟩

/-- Options have a value when they take one. -/
theorem OptionWord.fits {before : List Flag} {last : Flag} {value : Option Value}
    (h : OptionWord argument ⟨before, last, value⟩) :
    (∀ flag ∈ before, flag.takesValue = false) ∧
      (value.isSome = true → last.takesValue = true) := by
  cases h with
  | bare => exact ⟨by simp, by simp⟩
  | attached _ _ hcarries => exact hcarries.fits

theorem fits_joined {before : List Flag} (hbefore : ∀ flag ∈ before, flag.takesValue = false)
    (hclause : clause.Fits) (hclauses : ∀ clause ∈ clauses, clause.Fits) :
    ∀ other ∈ before.map .switch ++ clause :: clauses, other.Fits := by
  simpa [or_imp, forall_and, Clause.Fits] using ⟨hbefore, hclause, hclauses⟩

theorem Says.fits (h : Says arguments clauses) : ∀ clause ∈ clauses, clause.Fits := by
  induction h with
  | nil => simp
  | model _ _ ih => exact List.forall_mem_cons.2 ⟨trivial, ih⟩
  | switch hword hswitch _ ih => exact fits_joined hword.fits.1 hswitch ih
  | attached hword _ ih => exact fits_joined hword.fits.1 (hword.fits.2 rfl) ih
  | detached hword htakes _ _ ih => exact fits_joined hword.fits.1 htakes ih
  | dashedModel | modelDashed => exact List.forall_mem_singleton.2 trivial

theorem Settles.withModel (h : Settles clauses a) (model : String) :
    Settles clauses { a with model } where
  __ := h

theorem parse_eq_ok_iff_takeWords :
    parse arguments = .ok a ↔ ∃ words b, classifyAll arguments = .ok words ∧
      takeWords .start words = .ok ⟨some a.model, b, []⟩ ∧ { b with model := a.model } = a := by
  unfold parse
  cases classifyAll arguments with
  | error fault => simp [bind_eq_ok_iff]
  | ok words =>
    simp only [bind_eq_ok_iff, Except.ok.injEq, exists_eq_left']
    constructor
    · rintro ⟨⟨model, b, extras⟩, htaken, h⟩
      dsimp only at h
      split at h
      · cases h
      · cases h
        exact ⟨words, b, rfl, htaken, rfl⟩
      · cases h
    · rintro ⟨_, b, rfl, htaken, ha⟩
      exact ⟨_, htaken, congrArg Except.ok ha⟩

/-- Exactly the lines of the grammar are accepted, and they give the run that they
ask for. -/
theorem parse_eq_ok_iff : parse arguments = .ok a ↔ Commands arguments a := by
  rw [parse_eq_ok_iff_takeWords]
  constructor
  · rintro ⟨words, b, hwords, htaken, ha⟩
    obtain ⟨clauses, hline, hclauses, hmodels⟩ := says_of_takeWords hwords htaken rfl
    refine ⟨clauses, hline, hmodels, ?_⟩
    rw [← ha]
    exact (settles_of_takeAll hclauses).withModel a.model
  · rintro ⟨clauses, hline, hmodels, hsettles⟩
    obtain ⟨b, hclauses⟩ := exists_takeAll (hsettles.allowed hline.fits)
    have hmodel : Progress.start.model.toList ++ clauses.filterMap Clause.model? =
        (some a.model).toList := hmodels
    obtain ⟨words, hwords, htaken⟩ := hline.exists_takeWords hclauses hmodel
    have hb := (settles_of_takeAll hclauses).withModel a.model
    exact ⟨words, b, hwords, htaken, hb.unique hsettles rfl⟩

end CallReach.CommandLine
