import CallReach.Proofs.Reachability.Refresh
import CallReach.Proofs.Source.Install
import CallReach.Proofs.Source.Reading

/-!
# Programs that were read can be analysed

A text is refused with a fault, or it is read.  A source that was read is
closed, and its indirect calls have signatures; so the program installed from it
is consistent, none of its call sites is malformed, and a query about it can
fail only because of its entry.

* Reading.  `Program.closed_of_ofSexpr` follows the reader through its forms.
* The model.  `Program.Shown.checkRefs` and `Program.Shown.fault?_eq_none` look
  at call sites through the calls that they show.
* Queries.  `answer_of_wellFormed` says that a query ends well where no site is
  malformed.
-/

namespace CallReach

namespace Source

variable {form : Sexpr} {known : List String} {source : Program}

/-! ## What was read -/

theorem exists_of_mem_right {α β : Type} {R : α → β → Prop} {as : List α} {bs : List β}
    (h : List.Forall₂ R as bs) {b : β} (hb : b ∈ bs) : ∃ a ∈ as, R a b := by
  induction h with
  | nil => cases hb
  | cons hab _ ih =>
    rcases List.mem_cons.1 hb with rfl | hb
    · exact ⟨_, List.mem_cons_self, hab⟩
    · obtain ⟨a, ha, hR⟩ := ih hb
      exact ⟨a, List.mem_cons_of_mem _ ha, hR⟩

theorem exists_of_mem_body {α β γ : Type} {R : β → γ → Prop} {parts : α → List β}
    {read : Option α} {body : Option (List γ)}
    (h : Option.Rel (fun a => List.Forall₂ R (parts a)) read body) {c : γ}
    (hc : c ∈ body.getD []) : ∃ a, read = some a ∧ ∃ b ∈ parts a, R b c := by
  cases h with
  | none => simp at hc
  | some hparts => exact ⟨_, rfl, exists_of_mem_right hparts hc⟩

/-- The type of an indirect call is a signature. -/
def Call.Typed (call : Call) : Prop :=
  ∀ type, call.target = .indirect type → type.isSignature = true

theorem Argument.mem_known_of_ofSexpr {name : String}
    (h : Argument.ofSexpr known form = .ok (.ref name)) : name ∈ known := by
  rcases Argument.ofSexpr_eq_ok_iff.1 h with ⟨operand, surplus, found, -, hfound, hname⟩ |
    ⟨_, _, -, -, hoperand⟩ | ⟨_, _, _, _, _, -, -, -, hoperand⟩
  · cases hname
    exact (knownNameOfSexpr_eq_ok_iff.1 hfound).2
  · cases hoperand
  · cases hoperand

/-- A target is a known function or has a signature. -/
theorem Target.of_ofSexpr {target : Target} (h : Target.ofSexpr known form = .ok target) :
    (∀ name, target = .named name → name ∈ known) ∧
      ∀ type, target = .indirect type → type.isSignature = true := by
  rcases Target.ofSexpr_eq_ok_iff.1 h with ⟨found, hfound, rfl⟩ | ⟨_, _, found, -, hfound, rfl⟩
  · refine ⟨fun name hname => ?_, by simp⟩
    cases hname
    exact (knownNameOfSexpr_eq_ok_iff.1 hfound).2
  · refine ⟨by simp, fun type htype => ?_⟩
    cases htype
    exact isSignature_of_signatureOfSexpr hfound

theorem Call.knows_of_ofSexpr {call : Call} (h : Call.ofSexpr known form = .ok call) :
    call.Knows known ∧ call.Typed := by
  obtain ⟨tag, target, arguments, -, -, htarget, harguments⟩ := Call.ofSexpr_eq_ok_iff.1 h
  obtain ⟨hnamed, htyped⟩ := Target.of_ofSexpr htarget
  refine ⟨⟨hnamed, fun name hname => ?_⟩, htyped⟩
  obtain ⟨argument, -, hargument⟩ := exists_of_mem_right harguments hname
  exact Argument.mem_known_of_ofSexpr hargument

theorem Header.knows_of_complete {header : Header} {function : Function}
    (h : header.complete known = .ok function) {block : Block} (hblock : block ∈ function.blocks)
    {call : Call} (hcall : call ∈ block.calls) : call.Knows known ∧ call.Typed := by
  obtain ⟨-, -, hbody⟩ := Header.complete_eq_ok_iff.1 h
  obtain ⟨-, -, form, -, hform⟩ := exists_of_mem_body hbody hblock
  obtain ⟨-, calls, -, -, hcalls⟩ := Block.ofSexpr_eq_ok_iff.1 hform
  obtain ⟨callForm, -, hread⟩ := exists_of_mem_right hcalls hcall
  exact Call.knows_of_ofSexpr hread

/-- A program that was read is closed, and its indirect calls have
signatures. -/
theorem Program.closed_of_ofSexpr (h : Program.ofSexpr form = .ok source) :
    source.Closed ∧ ∀ call ∈ source.calls, call.Typed := by
  obtain ⟨-, -, headers, -, -, -, hnodup, hfunctions⟩ := Program.ofSexpr_eq_ok_iff.1 h
  have hnames : source.names = headers.map (·.name) := Header.map_name_complete hfunctions
  have hcalls {call : Call} (hcall : call ∈ source.calls) :
      call.Knows source.names ∧ call.Typed := by
    obtain ⟨block, hblock, hcall⟩ := List.mem_flatMap.1 hcall
    obtain ⟨function, hfunction, hblock⟩ := List.mem_flatMap.1 hblock
    obtain ⟨header, -, hheader⟩ := exists_of_mem_right hfunctions hfunction
    rw [hnames]
    exact Header.knows_of_complete hheader hblock hcall
  exact ⟨⟨hnames ▸ hnodup, fun call hcall => (hcalls hcall).1⟩,
    fun call hcall => (hcalls hcall).2⟩

/-! ## The program in the model -/

section Shown

variable {m : Model} {p : ProgramId}

/-- Every call site shows a call of the source. -/
theorem Program.Shown.exists_call (h : source.Shown m p) {f : FunctionId} (hf : f ∈ m.members p)
    {entry : SiteId × CallSite} (hentry : entry ∈ m.sites f) :
    ∃ call ∈ source.calls, call.Shown m p entry.2 := by
  obtain ⟨function, hfunction, hshown⟩ := exists_of_mem_right h.functions hf
  obtain ⟨block, hblock, hsite⟩ := Model.exists_block_of_mem_sites hentry
  obtain ⟨blocks, hbody, placed, hplaced, hblock⟩ := exists_of_mem_body hshown.body hblock
  obtain ⟨call, hcall, hsite⟩ := exists_of_mem_right hblock.sites hsite
  have hmem : placed.1 ∈ function.blocks := by
    simpa [Function.blocks, hbody] using List.fst_mem_of_mem_zipIdx hplaced
  exact ⟨call, List.mem_flatMap.2 ⟨placed.1, List.mem_flatMap.2 ⟨function, hfunction, hmem⟩, hcall⟩,
    hsite⟩

/-- What a call site refers to was found in the program. -/
theorem Call.Shown.find?_of_mem_refs {call : Call} {site : CallSite} (h : call.Shown m p site)
    {g : FunctionId} (hg : g ∈ Model.refs site) : ∃ name, m.find? p name = some g := by
  rcases Model.mem_refs_iff.1 hg with hcallee | hargument
  · have htarget := h.target
    rw [hcallee] at htarget
    generalize call.target = target, site.calledType = calledType at htarget
    cases htarget with
    | named hnamed => exact ⟨_, hnamed.found⟩
  · obtain ⟨argument, -, hshown⟩ := exists_of_mem_right h.arguments hargument
    cases hshown with
    | ref hnamed => exact ⟨_, hnamed.found⟩

theorem Program.Shown.checkRefs (h : source.Shown m p) (hm : m.Coherent) :
    m.checkRefs p = .ok () := by
  rw [Model.checkRefs_eq_ok_iff]
  intro f hf entry hentry g hg
  obtain ⟨call, -, hcall⟩ := h.exists_call hf hentry
  obtain ⟨name, hfind⟩ := hcall.find?_of_mem_refs hg
  exact hm.owns_iff.2 (Model.mem_members_of_find? hfind)

/-- A site that shows a call has a callee or a signature, and functions and
operands alone as its arguments. -/
theorem Call.Shown.wellFormed {call : Call} {site : CallSite} (h : call.Shown m p site)
    (htyped : call.Typed) : site.WellFormed := by
  have harguments : argumentFault? site.arguments = none := by
    rw [argumentFault?, Option.map_eq_none_iff, List.findIdx?_eq_none_iff]
    intro argument hargument
    obtain ⟨shown, -, hshown⟩ := exists_of_mem_right h.arguments hargument
    cases hshown <;> rfl
  have htarget := h.target
  rw [CallSite.WellFormed, CallSite.fault?]
  generalize hsource : call.target = target, hcallee : site.callee = callee,
    hcalled : site.calledType = calledType at htarget
  cases htarget with
  | named => exact harguments
  | indirect type => simpa [htyped type hsource] using harguments

end Shown

end Source

/-! ## Queries -/

section Query

variable {m : Model} {p : ProgramId} {scope : Scope} {entry : Entry} {e : FunctionId}

/-- A query ends well where no call site is malformed. -/
theorem answer_of_wellFormed (hm : m.Coherent) (hrefs : m.checkRefs p = .ok ())
    (hscope : Closure.Follows m p scope)
    (hwell : ∀ f ∈ m.members p, ∀ site ∈ m.sites f, site.2.WellFormed)
    (hentry : entry.resolve m p = .ok e) : ∃ r, answer m p scope entry = .ok r := by
  have hcallees : Closure.ClosedUnderCallees m scope Set.univ := fun _ _ _ _ _ => trivial
  have hcandidates : Closure.ClosedUnderCandidates m scope Set.univ := by
    intro f hf called hcalled g hg
    trivial
  obtain ⟨scanned, queue, hfrontier, -, hends⟩ :=
    closureOf_ends hm hrefs hscope hcallees hcandidates (hm.mem_defined_of_resolve hentry) trivial
  rcases hends with ⟨-, hnone⟩ | ⟨f, rest, bad, rfl, hbad, -⟩
  · exact ⟨_, answer_eq_ok hentry hnone⟩
  · obtain ⟨site, hsite, hfault⟩ := (candidatesFrom_eq_error_iff.1 hbad).exists_not_wellFormed
    exact absurd (hwell f (hfrontier.members hfrontier.front.1) site hsite) hfault

/-- An entry is refused as missing, and a name under that name. -/
theorem Entry.eq_missingEntry_of_resolve (hm : m.Coherent) {fault : QueryFault}
    (h : entry.resolve m p = .error fault) :
    ∃ name reason, fault = .missingEntry name reason ∧
      ∀ given, entry = .named given → name = given := by
  cases entry with
  | named name =>
    cases hfind : m.findWide? p name with
    | none =>
      simp only [resolve, hfind, bind, Except.bind, Except.error.injEq] at h
      exact ⟨name, .notFound, h.symm, by simp⟩
    | some f =>
      simp only [resolve, hfind, bind, Except.bind] at h
      obtain ⟨text, rfl, hfind⟩ := Model.findWide?_eq_some_iff.1 hfind
      split at h
      · cases h
        have hname : m.name f = text := hm.name_of_find? hfind
        exact ⟨m.name f, .declaration, rfl, by simp [hname]⟩
      · cases h
  | function f =>
    cases howns : m.owns p f with
    | false =>
      simp only [resolve, howns, bind, Except.bind] at h
      cases h
      exact ⟨m.name f, .notMember, rfl, by simp⟩
    | true =>
      simp only [resolve, howns, if_true, bind, Except.bind] at h
      split at h
      · cases h
        exact ⟨m.name f, .declaration, rfl, by simp⟩
      · cases h

/-- The names that can be entries are those of the defined functions. -/
theorem Entry.exists_resolve_named_iff (hm : m.Coherent) {name : Text.Wide} :
    (∃ e, (Entry.named name).resolve m p = .ok e) ↔ ∃ f ∈ m.defined p, m.name f = name := by
  simp only [Entry.resolve_named_eq_ok_iff, Model.mem_defined_iff]
  constructor
  · rintro ⟨f, hfind, hdefined⟩
    obtain ⟨text, rfl, hfind⟩ := Model.findWide?_eq_some_iff.1 hfind
    exact ⟨f, ⟨Model.mem_members_of_find? hfind, hdefined⟩,
      congrArg Text.Wide.whole (hm.name_of_find? hfind)⟩
  · rintro ⟨f, ⟨hf, hdefined⟩, rfl⟩
    exact ⟨f, hm.find?_name hf, hdefined⟩

section Analysis

variable {a : Analysis} {w : Workspace} (hm : w.model.Coherent)

include hm

/-- A query over direct calls fails because of its entry or not at all. -/
theorem Analysis.directlyReached_ne_malformed (entry : Entry) (bad : MalformedSite)
    (found : FunctionSet) :
    (a.directlyReached w entry).value ≠ .error (.malformed bad found) := by
  unfold directlyReached
  cases hentry : entry.resolve w.model a.program with
  | error fault =>
    obtain ⟨name, reason, rfl, -⟩ := Entry.eq_missingEntry_of_resolve hm hentry
    simp
  | ok e => simp

variable (hrefs : w.model.checkRefs a.program = .ok ()) (hgraph : a.GraphInStep w)
  (hwell : ∀ f ∈ w.model.members a.program, ∀ site ∈ w.model.sites f, site.2.WellFormed)

include hrefs hgraph hwell

/-- In a program without malformed call sites a query is answered, or its entry
is refused. -/
theorem Analysis.query_of_wellFormed (entry : Entry) :
    (∃ e r, entry.resolve w.model a.program = .ok e ∧ (a.query w entry).value = .ok r) ∨
      ∃ fault, entry.resolve w.model a.program = .error fault ∧
        (a.query w entry).value = .error fault := by
  rw [query_value_eq_fresh hgraph]
  cases hentry : entry.resolve w.model a.program with
  | error fault => exact .inr ⟨fault, rfl, by simp [answer, hentry]⟩
  | ok e =>
    have hscope := hm.follows_freshScope hrefs a.usesGraph a.callbacks
    obtain ⟨r, hr⟩ := answer_of_wellFormed hm hrefs hscope hwell hentry
    exact .inl ⟨e, r, rfl, hr⟩

theorem Analysis.query_ne_malformed (entry : Entry) (bad : MalformedSite) (found : FunctionSet) :
    (a.query w entry).value ≠ .error (.malformed bad found) := by
  intro hvalue
  rcases query_of_wellFormed hm hrefs hgraph hwell entry with ⟨e, r, -, hr⟩ | ⟨fault, hentry, hr⟩
  · simp [hr] at hvalue
  · obtain ⟨name, reason, rfl, -⟩ := Entry.eq_missingEntry_of_resolve hm hentry
    simp [hr] at hvalue

/-- The names that are answered are those of the defined functions, and the
others are missing. -/
theorem Analysis.query_named_of_wellFormed (name : Text.Wide) :
    ((∃ r, (a.query w (.named name)).value = .ok r) ↔
      ∃ f ∈ w.model.defined a.program, w.model.name f = name) ∧
    ∀ fault, (a.query w (.named name)).value = .error fault →
      ∃ reason, fault = .missingEntry name reason := by
  rw [← Entry.exists_resolve_named_iff hm]
  rcases query_of_wellFormed hm hrefs hgraph hwell (.named name) with
    ⟨e, r, hentry, hr⟩ | ⟨fault, hentry, hr⟩
  · simp [hr, hentry]
  · obtain ⟨given, reason, rfl, hgiven⟩ := Entry.eq_missingEntry_of_resolve hm hentry
    obtain rfl := hgiven name rfl
    refine ⟨by simp [hr, hentry], fun fault hfault => ⟨reason, ?_⟩⟩
    simpa [hr, eq_comm] using hfault

end Analysis

end Query

namespace Source

/-! ## Texts -/

section Text

variable {format : Sexpr.Format} {file : String} {text : List Char}

/-- A fault names its file. -/
theorem Fault.exists_message (fault : Fault) :
    ∃ rest, fault.message = fault.file ++ ": " ++ rest := by
  unfold Fault.message
  split
  · exact ⟨fault.summary, rfl⟩
  · exact ⟨fault.summary, rfl⟩
  · rename_i form _ _
    exact ⟨fault.summary ++ " (in " ++ form ++ ")", by simp only [String.append_assoc]⟩

theorem Program.ofText_eq_ok_iff :
    Program.ofText format text = .ok source ↔
      ∃ form, format.forms text = .ok [form] ∧ Program.ofSexpr form = .ok source := by
  unfold Program.ofText
  split
  · next hforms => simp [hforms]
  · next hforms => simp [hforms]
  · next forms hmany hforms =>
    refine ⟨by simp, ?_⟩
    rintro ⟨form, hform, -⟩
    rw [hforms] at hform
    exact (hmany form (Except.ok.inj hform)).elim

/-- A text is read when it is one form, and the form is a program. -/
theorem read_eq_ok_iff :
    read format file text = .ok source ↔
      ∃ form, format.forms text = .ok [form] ∧ Program.ofSexpr form = .ok source := by
  rw [← Program.ofText_eq_ok_iff, read]
  cases Program.ofText format text <;> simp [Except.mapError]

/-- A text that is not read is refused in the name of its file. -/
theorem file_of_read {fault : Fault} (h : read format file text = .error fault) :
    fault.file = file := by
  unfold read at h
  cases hsource : Program.ofText format text with
  | error mistake =>
    rw [hsource] at h
    cases h
    rfl
  | ok source =>
    rw [hsource] at h
    cases h

end Text

/-- In every format of expressions, a text is refused with a fault that carries
the name of its file, or it is read.  In the second case no edit that builds the
program is refused, the program is consistent and has no malformed call site,
and a query about it is answered for the names of its defined functions and
fails for the other names as missing. -/
theorem read_analysable (format : Sexpr.Format) (file : String) (text : List Char) {m : Model}
    (hmade : m.Made) :
    (∃ fault rest, read format file text = .error fault ∧ fault.file = file ∧
      fault.message = file ++ ": " ++ rest) ∨
    ∃ source installed p, read format file text = .ok source ∧
      source.install m = (installed, p) ∧
      Edit.applyAll m (source.edits m) = some installed ∧
      installed.checkRefs p = .ok () ∧
      (∀ site ∈ installed.programSites p, site.2.fault? = none) ∧
      ∀ (w : Workspace) (a : Analysis), w.model = installed → a.program = p →
        (a.usesGraph = true → ∀ g ∈ a.graph, (w.graph g).isOutdated w.model = true ∨
          CallGraph.Current a.program w.model (w.graph g)) →
        (∀ entry bad found, (a.query w entry).value ≠ .error (.malformed bad found) ∧
          (a.directlyReached w entry).value ≠ .error (.malformed bad found)) ∧
        ∀ name,
          ((∃ r, (a.query w (.named name)).value = .ok r) ↔
            ∃ f ∈ installed.defined p, installed.name f = name) ∧
          ∀ fault, (a.query w (.named name)).value = .error fault →
            ∃ reason, fault = .missingEntry name reason := by
  cases hread : read format file text with
  | error fault =>
    obtain rfl := file_of_read hread
    obtain ⟨rest, hrest⟩ := fault.exists_message
    exact .inl ⟨fault, rest, rfl, rfl, hrest⟩
  | ok source =>
    obtain ⟨form, -, hform⟩ := read_eq_ok_iff.1 hread
    obtain ⟨hclosed, htyped⟩ := Program.closed_of_ofSexpr hform
    obtain ⟨hshown, hedits⟩ := Program.shown_install hclosed m
    generalize hinstall : source.install m = result at hshown hedits
    obtain ⟨installed, p⟩ := result
    have hm := (hmade.applyAll hedits).coherent
    have hrefs := hshown.checkRefs hm
    have hwell : ∀ f ∈ installed.members p, ∀ site ∈ installed.sites f, site.2.WellFormed := by
      intro f hf site hsite
      obtain ⟨call, hcall, hcallShown⟩ := hshown.exists_call hf hsite
      exact hcallShown.wellFormed (htyped call hcall)
    refine .inr ⟨source, installed, p, rfl, hinstall, hedits, hrefs, fun site hsite => ?_, ?_⟩
    · obtain ⟨f, hf, hmem⟩ := List.mem_flatMap.1 hsite
      exact hwell f hf site hmem
    · rintro w a rfl rfl hgraph
      have hstep := Analysis.graphInStep_of_current hrefs hgraph
      refine ⟨fun entry bad found => ⟨?_, ?_⟩, ?_⟩
      · exact Analysis.query_ne_malformed hm hrefs hstep hwell entry bad found
      · exact Analysis.directlyReached_ne_malformed hm entry bad found
      · exact Analysis.query_named_of_wellFormed hm hrefs hstep hwell

/-- The text of a function that calls itself and passes itself, without the last
bracket. -/
def openText : List Char :=
  "(program (define f (fn i) (block b (call f (ref f))))".toList

/-- The form of the text with its last bracket. -/
def closedForm : Sexpr :=
  .list [.symbol "program",
    .list [.symbol "define", .symbol "f", .list [.symbol "fn", .symbol "i"],
      .list [.symbol "block", .symbol "b",
        .list [.symbol "call", .symbol "f", .list [.symbol "ref", .symbol "f"]]]]]

/-- The program of that form. -/
def selfProgram : Program where
  name := defaultName
  functions := [⟨"f", .signature (.scalar "i") [] false,
    some [⟨"b", [⟨.call, .named "f", [.ref "f"]⟩]⟩]⟩]

theorem read_closed (file : String) :
    read .standard file (openText ++ [')']) = .ok selfProgram :=
  read_eq_ok_iff.2 ⟨closedForm, Sexpr.Format.forms_of_ok (by cbv), by cbv⟩

/-- Without its last bracket the text is refused.  With it, the text is read and
`f` can be asked for. -/
theorem read_analysable_self :
    (∃ fault rest, read .standard "self.ir" openText = .error fault ∧ fault.file = "self.ir" ∧
        fault.message = "self.ir" ++ ": " ++ rest) ∧
      ∃ source installed p, read .standard "self.ir" (openText ++ [')']) = .ok source ∧
        source.install .empty = (installed, p) ∧ installed.checkRefs p = .ok () ∧
        (∃ f ∈ installed.defined p, installed.name f = "f") ∧
        ∃ r, ((⟨p, none, true, true⟩ : Analysis).query ⟨installed, #[]⟩ (.named "f")).value =
          .ok r := by
  have hunclosed : Sexpr.readAll ('(' :: (openText ++ ['\n', ')'])) =
      .error (.unclosed .round none) := by cbv
  have hopen : Sexpr.Format.standard.forms openText =
      .error (Sexpr.Fault.unclosed .round none).message :=
    Sexpr.Format.forms_of_error (by simp [Sexpr.Format.standard, Sexpr.load, hunclosed])
  have hclosed := read_closed "self.ir"
  constructor
  · rcases read_analysable .standard "self.ir" openText .empty with
      hrefused | ⟨source, -, -, hread, -⟩
    · exact hrefused
    · obtain ⟨form, hform, -⟩ := read_eq_ok_iff.1 hread
      cases hopen.symm.trans hform
  · rcases read_analysable .standard "self.ir" (openText ++ [')']) .empty with
      ⟨fault, -, hread, -⟩ | ⟨source, installed, p, hread, hinstall, -, hrefs, -, hqueries⟩
    · cases hclosed.symm.trans hread
    · cases hclosed.symm.trans hread
      have hdefined : ∃ f ∈ installed.defined p, installed.name f = "f" := by
        cases hinstall
        exact ⟨⟨0⟩, by decide, rfl⟩
      have hname := ((hqueries ⟨installed, #[]⟩ ⟨p, none, true, true⟩ rfl rfl (by simp)).2 "f").1
      exact ⟨_, installed, p, hclosed, hinstall, hrefs, hdefined, hname.2 (by simpa using hdefined)⟩

end Source

end CallReach
