import CallReach.Proofs.Reachability.Refresh

/-!
# Queries about larger programs

`Model.Embeds` compares two programs by names: the second one has every defined
function of the first, with the same type and at least the same calls.  The
programs may live in different models, and the order of functions, blocks and
call sites plays no part.

* Call sites.  Sites that match are malformed for the same reason, or not at all.
* One step.  `Model.Embeds.leads`: what a function leads to has a namesake that
  its namesake leads to.
* All steps.  `Model.Embeds.reach_subset`: a set of the larger program that is
  closed has namesakes of everything that the smaller program reaches.

`Analysis.query_monotone` is the result: a query in the smaller program succeeds
and finds no more than one in the larger program that got to its entry.
-/

namespace CallReach

/-! ## Matching call sites -/

/-- Callees of two models that are the same by name. -/
inductive Callee.Matches (m n : Model) : Callee → Callee → Prop where
  | function {f g : FunctionId} (hname : n.name g = m.name f) :
      Matches m n (.function f) (.function g)
  | absent : Matches m n .absent .absent
  | other (value : Json) : Matches m n (.other value) (.other value)

/-- Arguments of two models that are the same, with functions taken by name. -/
inductive Argument.Matches (m n : Model) : Argument → Argument → Prop where
  | ref {f g : FunctionId} (hname : n.name g = m.name f) : Matches m n (.ref f) (.ref g)
  | operand (type : Ty) (name : Option String) :
      Matches m n (.operand type name) (.operand type name)
  | other (value : Json) : Matches m n (.other value) (.other value)

/-- Call sites of two models that are the same, with functions taken by name.
Whether they are calls or invokes does not matter. -/
structure CallSite.Matches (m n : Model) (site other : CallSite) : Prop where
  callee : site.callee.Matches m n other.callee
  calledType : other.calledType = site.calledType
  arguments : List.Forall₂ (Argument.Matches m n) site.arguments other.arguments

section Site

variable {m n : Model} {site other : CallSite}

theorem Argument.Matches.isOther_eq {argument counterpart : Argument}
    (h : argument.Matches m n counterpart) : counterpart.isOther = argument.isOther := by
  cases h <;> rfl

theorem argumentFault?_eq {arguments counterparts : List Argument}
    (h : List.Forall₂ (Argument.Matches m n) arguments counterparts) :
    argumentFault? counterparts = argumentFault? arguments := by
  unfold argumentFault?
  congr 1
  induction h with
  | nil => rfl
  | cons hargument _ ih => rw [List.findIdx?_cons, List.findIdx?_cons, hargument.isOther_eq, ih]

/-- Matching call sites are malformed for the same reason, or not at all. -/
theorem CallSite.Matches.fault?_eq (h : site.Matches m n other) : other.fault? = site.fault? := by
  obtain ⟨callee, calledType, arguments, kind⟩ := site
  obtain ⟨otherCallee, otherType, otherArguments, otherKind⟩ := other
  obtain ⟨hcallee, rfl, harguments⟩ := h
  have hfault := argumentFault?_eq harguments
  cases hcallee with
  | function hname => exact hfault
  | absent => simp only [fault?, hfault]
  | other value => rfl

theorem CallSite.Matches.exists_callee (h : site.Matches m n other) {f : FunctionId}
    (hf : site.callee = .function f) : ∃ g, other.callee = .function g ∧ n.name g = m.name f := by
  have hcallee := h.callee
  rw [hf] at hcallee
  generalize other.callee = callee at hcallee
  cases hcallee with
  | function hname => exact ⟨_, rfl, hname⟩

theorem CallSite.Matches.callee_absent (h : site.Matches m n other)
    (habsent : site.callee = .absent) : other.callee = .absent := by
  have hcallee := h.callee
  rw [habsent] at hcallee
  generalize other.callee = callee at hcallee
  cases hcallee
  rfl

theorem CallSite.Matches.exists_argument (h : site.Matches m n other) {argument : Argument}
    (hargument : argument ∈ site.arguments) :
    ∃ counterpart ∈ other.arguments, argument.Matches m n counterpart := by
  obtain ⟨i, rfl⟩ := List.mem_iff_get.1 hargument
  have hi : i < other.arguments.length := by
    rw [← h.arguments.length_eq]
    exact i.2
  exact ⟨other.arguments.get ⟨i, hi⟩, List.get_mem _ _, h.arguments.get i.2 hi⟩

end Site

/-! ## Programs inside others -/

/-- A function of one model has all calls of a function of another model, by
name, and the same name and type. -/
structure Model.Includes (m n : Model) (f g : FunctionId) : Prop where
  name : n.name g = m.name f
  type : n.type g = m.type f
  sites : ∀ entry ∈ m.sites f, ∃ counterpart ∈ n.sites g, entry.2.Matches m n counterpart.2

/-- Every defined function of the first program is included in a defined function
of the second one. -/
def Model.Embeds (m : Model) (p : ProgramId) (n : Model) (q : ProgramId) : Prop :=
  ∀ f ∈ m.defined p, ∃ g ∈ n.defined q, m.Includes n f g

namespace Model.Embeds

variable {m n : Model} {p q : ProgramId} {f g k : FunctionId}

/-- The namesake of a defined function is defined and includes it. -/
theorem includes (h : m.Embeds p n q) (hn : n.Coherent) (hf : f ∈ m.defined p)
    (hg : g ∈ n.members q) (hname : n.name g = m.name f) :
    g ∈ n.defined q ∧ m.Includes n f g := by
  obtain ⟨twin, htwin, hincludes⟩ := h f hf
  have hmember := (Model.mem_defined_iff.1 htwin).1
  obtain rfl : g = twin := hn.eq_of_name_eq hg hmember (hname.trans hincludes.name.symm)
  exact ⟨htwin, hincludes⟩

/-- What an argument may stand for has a namesake that its counterpart may stand
for. -/
theorem mayBe (h : m.Embeds p n q) (hn : n.Coherent) {argument counterpart : Argument}
    (hk : k ∈ m.defined p) (hmay : argument.MayBe m p k)
    (hsame : argument.Matches m n counterpart)
    (hrefs : ∀ g, counterpart = .ref g → g ∈ n.members q) :
    ∃ twin, n.name twin = m.name k ∧ counterpart.MayBe n q twin := by
  rcases hmay with ⟨rfl, -⟩ | ⟨type, name, rfl, hcarries, -⟩
  · cases hsame with
    | @ref _ g hname =>
      obtain ⟨hinside, -⟩ := h.includes hn hk (hrefs g rfl) hname
      exact ⟨g, hname, .inl ⟨rfl, (Model.mem_defined_iff.1 hinside).2⟩⟩
  · cases hsame
    obtain ⟨twin, htwin, hincludes⟩ := h k hk
    refine ⟨twin, hincludes.name, .inr ⟨type, name, rfl, ?_, htwin⟩⟩
    rwa [hincludes.type]

/-! ### One step -/

section Step

variable (h : m.Embeds p n q) (hm : m.Coherent) (hrefs : m.checkRefs p = .ok ())
  (hn : n.Coherent) (hvalid : n.checkRefs q = .ok ())

include h hm hrefs hn hvalid

/-- A direct call has its counterpart. -/
theorem calls (hf : f ∈ m.defined p) (hg : g ∈ n.members q) (hname : n.name g = m.name f)
    (hcalls : m.Calls f k) : ∃ twin, n.name twin = m.name k ∧ n.Calls g twin := by
  obtain ⟨entry, hentry, hcallee, hdefined⟩ := hcalls
  have hk : k ∈ m.defined p := Model.mem_defined_iff.2
    ⟨hm.mem_members_of_callee hrefs (Model.mem_defined_iff.1 hf).1 hentry hcallee, hdefined⟩
  obtain ⟨counterpart, hcounterpart, hmatches⟩ := (h.includes hn hf hg hname).2.sites entry hentry
  obtain ⟨twin, htwin, hnames⟩ := hmatches.exists_callee hcallee
  have hmember := hn.mem_members_of_callee hvalid hg hcounterpart htwin
  obtain ⟨hinside, -⟩ := h.includes hn hk hmember hnames
  exact ⟨twin, hnames, counterpart, hcounterpart, htwin, (Model.mem_defined_iff.1 hinside).2⟩

/-- What a function leads to has a namesake that its namesake leads to. -/
theorem leads {callbacks more : Bool} (hmore : callbacks = true → more = true)
    {heeded : CallSite → Prop} (hf : f ∈ m.defined p) (hg : g ∈ n.members q)
    (hname : n.name g = m.name f) (hleads : m.Leads p callbacks heeded f k) :
    ∃ twin, n.name twin = m.name k ∧ n.Leads q more (fun _ => True) g twin := by
  have hsites := (h.includes hn hf hg hname).2.sites
  have hk : k ∈ m.defined p := hleads.mem_defined hm hrefs (Model.mem_defined_iff.1 hf).1
  cases hleads with
  | call hcalls =>
    obtain ⟨twin, hnames, htwin⟩ := h.calls hm hrefs hn hvalid hf hg hname hcalls
    exact ⟨twin, hnames, .call htwin⟩
  | pointer hentry _ hcall =>
    obtain ⟨habsent, htype, -⟩ := hcall
    obtain ⟨counterpart, hcounterpart, hmatches⟩ := hsites _ hentry
    obtain ⟨twin, htwin, hincludes⟩ := h k hk
    refine ⟨twin, hincludes.name, .pointer hcounterpart trivial
      ⟨hmatches.callee_absent habsent, ?_, htwin⟩⟩
    rw [hmatches.calledType, htype, hincludes.type]
  | pass hcallbacks hentry _ hpass =>
    obtain ⟨argument, hargument, hmay⟩ := hpass
    obtain ⟨counterpart, hcounterpart, hmatches⟩ := hsites _ hentry
    obtain ⟨other, hother, hsame⟩ := hmatches.exists_argument hargument
    have hfound : ∃ twin, n.name twin = m.name k ∧ other.MayBe n q twin := by
      refine h.mayBe hn hk hmay hsame fun twin htwin => ?_
      exact hn.mem_members_of_argument hvalid hg hcounterpart (htwin ▸ hother)
    obtain ⟨twin, hnames, htwin⟩ := hfound
    exact ⟨twin, hnames, .pass (hmore hcallbacks) hcounterpart trivial ⟨other, hother, htwin⟩⟩

/-! ### All steps -/

/-- The defined functions of the smaller program that have a namesake in a set of
functions of the larger one. -/
def namesakes (m : Model) (p : ProgramId) (n : Model) (S : Set FunctionId) : Set FunctionId :=
  {f | f ∈ m.defined p ∧ ∃ g ∈ S, n.name g = m.name f}

/-- What the entry leads to in the smaller program has namesakes in every closed
set of the larger one that has a namesake of the entry. -/
theorem reach_subset {callbacks more : Bool} (hmore : callbacks = true → more = true)
    {S : Set FunctionId} (hmembers : ∀ g ∈ S, g ∈ n.members q)
    (hclosed : ∀ g ∈ S, ∀ k, n.Leads q more (fun _ => True) g k → k ∈ S)
    (he : f ∈ namesakes m p n S) : reach m p callbacks f ⊆ namesakes m p n S := by
  refine (isLeast_closedFrom f _).2 ⟨he, fun k hk l hleads => ?_⟩
  obtain ⟨hdefined, g, hg, hname⟩ := hk
  obtain ⟨twin, hnames, htwin⟩ :=
    h.leads hm hrefs hn hvalid hmore hdefined (hmembers g hg) hname hleads
  exact ⟨hleads.mem_defined hm hrefs (Model.mem_defined_iff.1 hdefined).1,
    twin, hclosed g hg twin htwin, hnames⟩

/-- The same over direct calls. -/
theorem walk_subset {S : Set FunctionId} (hmembers : ∀ g ∈ S, g ∈ n.members q)
    (hclosed : ∀ g ∈ S, ∀ k, n.Calls g k → k ∈ S) (he : f ∈ namesakes m p n S) :
    {k | k ∈ walk m m.staticCallees [] [f]} ⊆ namesakes m p n S := by
  refine (isLeast_walk hm hrefs he.1).2 ⟨he, fun k hk l hcalls => ?_⟩
  obtain ⟨hdefined, g, hg, hname⟩ := hk
  obtain ⟨twin, hnames, htwin⟩ :=
    h.calls hm hrefs hn hvalid hdefined (hmembers g hg) hname hcalls
  have hleads : m.Leads p false (fun _ => True) k l := .call hcalls
  exact ⟨hleads.mem_defined hm hrefs (Model.mem_defined_iff.1 hdefined).1,
    twin, hclosed g hg twin htwin, hnames⟩

end Step

end Model.Embeds

/-! ## The result -/

section Query

variable {a b : Analysis} {w v : Workspace}

/-- A query that scans call sites and returns a result was about a defined
function. -/
theorem Analysis.completed_of_query (hm : w.model.Coherent)
    (hrefs : w.model.checkRefs a.program = .ok ()) (hscan : a.usesGraph = false) {entry : Entry}
    {r : Result} (hr : (a.query w entry).value = .ok r) :
    ∃ e ∈ w.model.defined a.program, Completed w.model a.program a.callbacks e r := by
  rw [query_value_of_scan hscan] at hr
  cases hresolve : entry.resolve w.model a.program with
  | error fault => simp [answer, hresolve] at hr
  | ok e =>
    have he := hm.mem_defined_of_resolve hresolve
    rcases answer_cases a.callbacks hm hrefs he hresolve with
      ⟨found, hfound, hcompleted⟩ | ⟨bad, found, hbad, -⟩
    · obtain rfl : found = r := by simpa [hfound] using hr
      exact ⟨e, he, hcompleted⟩
    · simp [hbad] at hr

/-- What a query returns lies inside the program. -/
theorem Completed.mem_members {m : Model} {p : ProgramId} {callbacks : Bool} {e : FunctionId}
    {r : Result} (h : Completed m p callbacks e r) (hm : m.Coherent)
    (hrefs : m.checkRefs p = .ok ()) (he : e ∈ m.defined p) :
    (∀ f ∈ r.reachable, f ∈ m.members p) ∧ ∀ f ∈ r.direct, f ∈ m.members p := by
  obtain ⟨-, hdirect, hreachable, -, -⟩ := h
  constructor
  · intro f hf
    exact (Model.mem_defined_iff.1 (reach_subset_defined hm hrefs he f ((hreachable f).1 hf))).1
  · intro f hf
    rw [hdirect] at hf
    have hstack : [e] ⊆ m.members p := by simpa using (Model.mem_defined_iff.1 he).1
    exact walk_subset_members (hm.staticCallees_within hrefs) hstack hf

/-- A query in a program succeeds, and the names that it finds are among those
that a query in a larger program finds, as soon as the latter finds its entry by
name.  The same holds of the names that are found over direct calls. -/
theorem Analysis.query_monotone (hmade : w.model.Made) (hlarger : v.model.Made)
    (hvalid : w.model.checkRefs a.program = .ok ()) (hvalid' : v.model.checkRefs b.program = .ok ())
    (hscan : a.usesGraph = false) (hscan' : b.usesGraph = false)
    (hcallbacks : a.callbacks = true → b.callbacks = true)
    (hembeds : w.model.Embeds a.program v.model b.program)
    {e : FunctionId} (he : e ∈ w.model.defined a.program) {entry entry' : Entry}
    (hentry : entry = .function e ∨ entry = .named (w.model.name e)) {r' : Result}
    (hr' : (b.query v entry').value = .ok r')
    (hfound : w.model.name e ∈ v.model.names r'.reachable) :
    ∃ r, (a.query w entry).value = .ok r ∧
      w.model.names r.reachable ⊆ v.model.names r'.reachable ∧
      (w.model.name e ∈ v.model.names r'.direct →
        w.model.names r.direct ⊆ v.model.names r'.direct) := by
  have hm := hmade.coherent
  have hn := hlarger.coherent
  obtain ⟨e', he', hcompleted'⟩ := completed_of_query hn hvalid' hscan' hr'
  obtain ⟨hmembers', hinside'⟩ := hcompleted'.mem_members hn hvalid' he'
  obtain ⟨-, hdirect', -, hclosed', hfine'⟩ := hcompleted'
  have hreach := hembeds.reach_subset hm hvalid hn hvalid' hcallbacks hmembers' hclosed'
    ⟨he, Model.mem_names_iff.1 hfound⟩
  rw [query_value_of_scan hscan]
  rcases answer_cases a.callbacks hm hvalid he (hm.resolve_of_mem_defined he hentry) with
    ⟨r, hr, -, hdirect, hreachable, -, -⟩ | ⟨bad, found, -, ⟨f, hf, hfault⟩, -, hbound, -⟩
  · refine ⟨r, hr, fun name hname => ?_, fun hentered name hname => ?_⟩
    · obtain ⟨f, hf, rfl⟩ := Model.mem_names_iff.1 hname
      exact Model.mem_names_iff.2 (hreach ((hreachable f).1 hf)).2
    · obtain ⟨f, hf, rfl⟩ := Model.mem_names_iff.1 hname
      have hcalls' : ∀ g ∈ r'.direct, ∀ k, v.model.Calls g k → k ∈ r'.direct := by
        rw [hdirect']
        exact (isLeast_walk hn hvalid' he').1.2
      have hwalk := hembeds.walk_subset hm hvalid hn hvalid' hinside' hcalls'
        ⟨he, Model.mem_names_iff.1 hentered⟩
      rw [hdirect] at hf
      exact Model.mem_names_iff.2 (hwalk hf).2
  · -- The malformed site has a counterpart that the larger query has passed.
    obtain ⟨site, hsite, hnot⟩ := hfault.exists_not_wellFormed
    obtain ⟨hdefined, g, hg, hname⟩ := hreach (hbound f hf)
    obtain ⟨counterpart, hcounterpart, hmatches⟩ :=
      (hembeds.includes hn hdefined (hmembers' g hg) hname).2.sites site hsite
    refine absurd ?_ hnot
    show site.2.fault? = none
    rw [← hmatches.fault?_eq]
    exact hfine' g hg counterpart hcounterpart

namespace Part

/-- The edits that make a part of the small program, in another order and with
other kinds of calls.  `onEvent` and `idle` are not there. -/
def edits : List Edit :=
  [.newProgram "part", .create ⟨0⟩ "log" Model.Relay.worker false,
   .create ⟨0⟩ "onDone" Model.Relay.worker true, .create ⟨0⟩ "step" Model.Relay.worker true,
   .create ⟨0⟩ "main" Model.Relay.worker true, .newBlock ⟨2⟩ none, .newBlock ⟨2⟩ none,
   .newCall ⟨⟨2⟩, 1⟩ (.function ⟨0⟩) [.ref ⟨1⟩] none .call,
   .newCall ⟨⟨2⟩, 1⟩ (.function ⟨3⟩) [] none .invoke, .newBlock ⟨3⟩ none,
   .newCall ⟨⟨3⟩, 0⟩ .absent [] (some Model.Relay.handler) .call]

/-- The model that these edits make. -/
def model : Model where
  functions := #[
    ⟨"log", Model.Relay.worker, none, some ⟨0⟩⟩,
    ⟨"onDone", Model.Relay.worker, some [], some ⟨0⟩⟩,
    ⟨"step", Model.Relay.worker, some [⟨"bb0", []⟩,
      ⟨"bb1", [⟨.function ⟨0⟩, some Model.Relay.worker, [.ref ⟨1⟩], .call⟩,
        ⟨.function ⟨3⟩, some Model.Relay.worker, [], .invoke⟩]⟩], some ⟨0⟩⟩,
    ⟨"main", Model.Relay.worker, some [⟨"bb0", [⟨.absent, some Model.Relay.handler, [], .call⟩]⟩],
      some ⟨0⟩⟩]
  programs := #[⟨"part", 10, [("log", ⟨0⟩), ("onDone", ⟨1⟩), ("step", ⟨2⟩), ("main", ⟨3⟩)]⟩]

theorem made : model.Made :=
  Model.Made.empty.applyAll (show Edit.applyAll .empty edits = some model from rfl)

theorem embeds : model.Embeds ⟨0⟩ Model.Relay.model ⟨0⟩ := by
  intro f hf
  have hdefined : model.defined ⟨0⟩ = [⟨1⟩, ⟨2⟩, ⟨3⟩] := rfl
  simp only [hdefined, List.mem_cons, List.not_mem_nil, or_false] at hf
  rcases hf with rfl | rfl | rfl
  · exact ⟨⟨4⟩, by decide, rfl, rfl, fun entry hentry => by cases hentry⟩
  · refine ⟨⟨1⟩, by decide, rfl, rfl, fun entry hentry => ?_⟩
    rcases hentry with - | ⟨_, - | ⟨_, hentry⟩⟩
    · exact ⟨(⟨⟨⟨1⟩, 0⟩, 1⟩, Model.Relay.model.site ⟨⟨⟨1⟩, 0⟩, 1⟩), by decide,
        .function rfl, rfl, .cons (.ref rfl) .nil⟩
    · exact ⟨(⟨⟨⟨1⟩, 0⟩, 0⟩, Model.Relay.model.site ⟨⟨⟨1⟩, 0⟩, 0⟩), by decide,
        .function rfl, rfl, .nil⟩
    · cases hentry
  · refine ⟨⟨0⟩, by decide, rfl, rfl, fun entry hentry => ?_⟩
    rcases hentry with - | ⟨_, hentry⟩
    · exact ⟨(⟨⟨⟨0⟩, 0⟩, 1⟩, Model.Relay.model.site ⟨⟨⟨0⟩, 0⟩, 1⟩), by decide,
        .absent, rfl, .nil⟩
    · cases hentry

end Part

/-- In the part a query from `step` finds a part of what a query from `main` finds
in the whole program. -/
theorem Analysis.query_monotone_part :
    ((⟨⟨0⟩, none, false, true⟩ : Analysis).query ⟨Model.Relay.model, #[]⟩ (.named "main")).value =
        .ok ⟨⟨0⟩, ⟨0⟩, [⟨0⟩, ⟨1⟩, ⟨3⟩, ⟨4⟩], [⟨0⟩, ⟨1⟩], none⟩ ∧
      ∃ r, ((⟨⟨0⟩, none, false, true⟩ : Analysis).query ⟨Part.model, #[]⟩ (.named "step")).value =
          .ok r ∧
        Part.model.names r.reachable ⊆ Model.Relay.model.names [⟨0⟩, ⟨1⟩, ⟨3⟩, ⟨4⟩] ∧
        Part.model.names r.direct ⊆ Model.Relay.model.names [⟨0⟩, ⟨1⟩] := by
  have hlarger : ((⟨⟨0⟩, none, false, true⟩ : Analysis).query ⟨Model.Relay.model, #[]⟩
      (.named "main")).value = .ok ⟨⟨0⟩, ⟨0⟩, [⟨0⟩, ⟨1⟩, ⟨3⟩, ⟨4⟩], [⟨0⟩, ⟨1⟩], none⟩ := by
    rw [query_value_of_scan rfl]
    cbv
  have hentry : Entry.named "step" = .function ⟨2⟩ ∨
      Entry.named "step" = .named (Part.model.name ⟨2⟩) := .inr rfl
  have hfound : Part.model.name ⟨2⟩ ∈ Model.Relay.model.names [⟨0⟩, ⟨1⟩, ⟨3⟩, ⟨4⟩] :=
    Model.mem_names_iff.2 ⟨⟨1⟩, by decide, rfl⟩
  have hentered : Part.model.name ⟨2⟩ ∈ Model.Relay.model.names [⟨0⟩, ⟨1⟩] :=
    Model.mem_names_iff.2 ⟨⟨1⟩, by decide, rfl⟩
  obtain ⟨r, hr, hreachable, hdirect⟩ :=
    query_monotone (a := ⟨⟨0⟩, none, false, true⟩) (b := ⟨⟨0⟩, none, false, true⟩)
      (w := ⟨Part.model, #[]⟩) (v := ⟨Model.Relay.model, #[]⟩) Part.made Model.Relay.made rfl rfl
      rfl rfl id Part.embeds (e := ⟨2⟩) (by decide) hentry hlarger hfound
  exact ⟨hlarger, r, hr, hreachable, hdirect hentered⟩

end Query

end CallReach
