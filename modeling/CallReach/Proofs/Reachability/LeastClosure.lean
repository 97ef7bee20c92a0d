import Mathlib
import CallReach.Proofs.Reachability.Closure
import CallReach.Reachability.Analysis

/-!
# What a query returns

The functions that a query returns are the least set around the entry that is
closed under what its members call, directly or not.  `Model.Calls` is a direct
call, `Model.Leads` adds the candidates of the call sites that are heeded, and
`ClosedFrom` gathers the closed sets.

* `answer` is a query without its log, for any view of the direct callees.
* `answer_cases` is the fixpoint argument.  A query that scans call sites ends
  in one of two ways: it returns the least closed set, in which no call site is
  malformed, or it reports the first malformed site of a function of that set.
* `query_isLeast` and `query_malformed_iff` are the two readings of it.
-/

namespace CallReach

/-! ## Closed sets -/

/-- A function calls a defined function at one of its call sites. -/
def Model.Calls (m : Model) (f g : FunctionId) : Prop :=
  ∃ entry ∈ m.sites f, entry.2.callee = .function g ∧ m.isDeclaration g = false

/-- A function leads to another one: it calls it, or the other one is a
candidate of a heeded call site of it.  What a site passes counts only with
`callbacks`. -/
inductive Model.Leads (m : Model) (p : ProgramId) (callbacks : Bool)
    (heeded : CallSite → Prop) (f g : FunctionId) : Prop where
  | call (h : m.Calls f g)
  | pointer {entry : SiteId × CallSite} (hentry : entry ∈ m.sites f)
      (hheeded : heeded entry.2) (h : entry.2.MayCall m p g)
  | pass {entry : SiteId × CallSite} (hcallbacks : callbacks = true)
      (hentry : entry ∈ m.sites f) (hheeded : heeded entry.2) (h : entry.2.MayPass m p g)

/-- The sets that have a function and with every member all that a relation
leads to. -/
def ClosedFrom (start : FunctionId) (step : FunctionId → FunctionId → Prop) :
    Set (Set FunctionId) :=
  {S | start ∈ S ∧ ∀ f ∈ S, ∀ g, step f g → g ∈ S}

/-- There is a least closed set: the functions at the end of a path. -/
theorem isLeast_closedFrom (start : FunctionId) (step : FunctionId → FunctionId → Prop) :
    IsLeast (ClosedFrom start step) {f | Relation.ReflTransGen step start f} := by
  refine ⟨⟨.refl, fun f hf g hstep => .tail hf hstep⟩, fun S hS f hf => ?_⟩
  induction hf with
  | refl => exact hS.1
  | tail _ hstep ih => exact hS.2 _ ih _ hstep

section Model

variable {m : Model} {p : ProgramId} {callbacks : Bool} {heeded : CallSite → Prop}
  {f g : FunctionId}

theorem Model.mem_staticCallees_iff :
    g ∈ m.staticCallees f ↔ ∃ entry ∈ m.sites f, entry.2.callee = .function g := by
  rw [staticCallees, List.mem_filterMap]
  refine exists_congr fun entry => and_congr_right fun _ => ?_
  cases hcallee : entry.2.callee <;> simp [hcallee]

theorem Model.calls_iff :
    m.Calls f g ↔ g ∈ m.staticCallees f ∧ m.isDeclaration g = false := by
  rw [mem_staticCallees_iff]
  constructor
  · rintro ⟨entry, hentry, hcallee, hdefined⟩
    exact ⟨⟨entry, hentry, hcallee⟩, hdefined⟩
  · rintro ⟨⟨entry, hentry, hcallee⟩, hdefined⟩
    exact ⟨entry, hentry, hcallee, hdefined⟩

/-- In a consistent program direct callees stay inside. -/
theorem Model.Coherent.staticCallees_within (hm : m.Coherent)
    (hrefs : m.checkRefs p = .ok ()) : CalleesWithin m p m.staticCallees := by
  intro f hf g hg
  obtain ⟨entry, hentry, hcallee⟩ := mem_staticCallees_iff.1 hg
  exact hm.mem_members_of_callee hrefs hf hentry hcallee

/-- A function of a consistent program leads to defined functions of it. -/
theorem Model.Leads.mem_defined (hm : m.Coherent) (hrefs : m.checkRefs p = .ok ())
    (hf : f ∈ m.members p) (h : m.Leads p callbacks heeded f g) : g ∈ m.defined p := by
  cases h with
  | call h =>
    obtain ⟨hcallee, hdefined⟩ := Model.calls_iff.1 h
    exact Model.mem_defined_iff.2 ⟨hm.staticCallees_within hrefs f hf hcallee, hdefined⟩
  | pointer hentry _ h => exact h.2.2
  | pass _ hentry _ h => exact hm.mem_defined_of_mayPass hrefs hf hentry h

/-- A function that leads somewhere has a body. -/
theorem Model.Leads.not_isDeclaration (h : m.Leads p callbacks heeded f g) :
    m.isDeclaration f = false := by
  by_contra hdeclared
  have hsites := sites_of_isDeclaration (Bool.eq_true_of_not_eq_false hdeclared)
  cases h with
  | call hcalls =>
    obtain ⟨entry, hentry, -⟩ := hcalls
    simp [hsites] at hentry
  | pointer hentry => simp [hsites] at hentry
  | pass _ hentry => simp [hsites] at hentry

end Model

/-! ## Queries without their log -/

section Answer

variable {m : Model} {p : ProgramId} {scope : Scope} {entry : Entry} {e : FunctionId}

/-- The closure of what a function calls directly. -/
def closureOf (m : Model) (scope : Scope) (e : FunctionId) : Closure.Outcome :=
  Closure.ofReachable m scope (directlyReachable m scope e)

/-- The value of a query, for a view of the direct callees. -/
def answer (m : Model) (p : ProgramId) (scope : Scope) (entry : Entry) :
    Except QueryFault Result :=
  match entry.resolve m p with
  | .error fault => .error fault
  | .ok e =>
      match (closureOf m scope e).malformed with
      | some bad => .error (.malformed bad (closureOf m scope e).reachable)
      | none => .ok ⟨p, e, (closureOf m scope e).reachable, directlyReachable m scope e, none⟩

theorem answer_eq_ok (hentry : entry.resolve m p = .ok e)
    (h : (closureOf m scope e).malformed = none) :
    answer m p scope entry =
      .ok ⟨p, e, (closureOf m scope e).reachable, walk m scope.callees [] [e], none⟩ := by
  simp only [answer, hentry, h]
  rfl

theorem answer_eq_malformed (hentry : entry.resolve m p = .ok e) {bad : MalformedSite}
    (h : (closureOf m scope e).malformed = some bad) :
    answer m p scope entry = .error (.malformed bad (closureOf m scope e).reachable) := by
  simp only [answer, hentry, h]

/-- The closure of what a function calls directly ends as every run does. -/
theorem closureOf_ends (hm : m.Coherent) (hrefs : m.checkRefs p = .ok ())
    (hscope : Closure.Follows m p scope) {S : Set FunctionId}
    (hcallees : Closure.ClosedUnderCallees m scope S)
    (hcandidates : Closure.ClosedUnderCandidates m scope S) (he : e ∈ m.defined p)
    (hS : e ∈ S) :
    ∃ scanned queue,
      Closure.Frontier m p scope S (closureOf m scope e).reachable scanned queue ∧
      walk m scope.callees [] [e] ⊆ (closureOf m scope e).reachable ∧
      Closure.Ends m scope (closureOf m scope e) queue :=
  Closure.run_ends hm hrefs hscope hcallees hcandidates
    (Closure.frontier_start hm hscope hcallees he hS)

/-- The log of a query does not touch its value. -/
theorem Analysis.query_value (a : Analysis) (w : Workspace) (entry : Entry) :
    (a.query w entry).value =
      answer w.model a.program
        ⟨(a.refresh w).workspace.callees (a.refresh w).value,
          TypeIndex.ofProgram w.model a.program, a.callbacks⟩ entry := by
  unfold query answer closureOf
  cases entry.resolve w.model a.program with
  | error fault => rfl
  | ok e =>
    dsimp only
    generalize Closure.ofReachable w.model _ _ = outcome
    cases outcome.malformed with
    | some bad => rfl
    | none => rfl

/-- What a query follows when it scans call sites. -/
def scanScope (m : Model) (p : ProgramId) (callbacks : Bool) : Scope :=
  ⟨m.staticCallees, TypeIndex.ofProgram m p, callbacks⟩

theorem Analysis.query_value_of_scan {a : Analysis} (hscan : a.usesGraph = false)
    (w : Workspace) (entry : Entry) :
    (a.query w entry).value =
      answer w.model a.program (scanScope w.model a.program a.callbacks) entry := by
  have hfresh : a.refresh w = ⟨w, a, [], none⟩ := by simp [refresh, hscan]
  rw [query_value, hfresh]
  rfl

theorem Analysis.directlyReached_value_of_scan {a : Analysis} (hscan : a.usesGraph = false)
    (w : Workspace) {entry : Entry} (hentry : entry.resolve w.model a.program = .ok e) :
    (a.directlyReached w entry).value = .ok (walk w.model w.model.staticCallees [] [e]) := by
  have hfresh : a.refresh w = ⟨w, a, [], none⟩ := by simp [refresh, hscan]
  simp only [directlyReached, hentry, hfresh]
  rfl

theorem Model.Coherent.follows_scanScope (hm : m.Coherent) (hrefs : m.checkRefs p = .ok ())
    (callbacks : Bool) : Closure.Follows m p (scanScope m p callbacks) :=
  ⟨hm.staticCallees_within hrefs, TypeIndex.exact_ofProgram hm⟩

/-- A defined function of a program is an entry, itself and by its name. -/
theorem Model.Coherent.resolve_of_mem_defined (hm : m.Coherent) (he : e ∈ m.defined p)
    (hentry : entry = .function e ∨ entry = .named (m.name e)) :
    entry.resolve m p = .ok e := by
  obtain ⟨hmember, hdefined⟩ := Model.mem_defined_iff.1 he
  rcases hentry with rfl | rfl
  · simp [Entry.resolve, hm.owns_iff.2 hmember, hdefined, bind, Except.bind]
  · simp [Entry.resolve, hm.find?_name hmember, hdefined, bind, Except.bind]

end Answer

/-! ## Two ways to end -/

section Fixpoint

variable {m : Model} {p : ProgramId} {callbacks : Bool} {entry : Entry} {e : FunctionId}

/-- A call site that has no fault. -/
def CallSite.WellFormed (site : CallSite) : Prop :=
  site.fault? = none

theorem FirstFault.exists_not_wellFormed {sites : List (SiteId × CallSite)}
    {bad : MalformedSite} (h : FirstFault sites bad) :
    ∃ site ∈ sites, ¬site.2.WellFormed := by
  obtain ⟨before, site, after, rfl, -, hfault⟩ := h
  exact ⟨(bad.site, site), by simp, by simp [CallSite.WellFormed, hfault]⟩

/-- What leads on from the entry over direct calls and well-formed call
sites. -/
def reach (m : Model) (p : ProgramId) (callbacks : Bool) (e : FunctionId) : Set FunctionId :=
  {f | Relation.ReflTransGen (m.Leads p callbacks CallSite.WellFormed) e f}

theorem reach_subset_defined (hm : m.Coherent) (hrefs : m.checkRefs p = .ok ())
    (he : e ∈ m.defined p) : ∀ f ∈ reach m p callbacks e, f ∈ m.defined p := by
  have hleast := (isLeast_closedFrom e (m.Leads p callbacks CallSite.WellFormed)).2
  refine hleast (a := {f | f ∈ m.defined p}) ⟨he, fun f hf g hleads => ?_⟩
  exact hleads.mem_defined hm hrefs (Model.mem_defined_iff.1 hf).1

theorem reach_closedUnderCallees :
    Closure.ClosedUnderCallees m (scanScope m p callbacks) (reach m p callbacks e) :=
  fun _ hf _ hg hdefined => .tail hf (.call (Model.calls_iff.2 ⟨hg, hdefined⟩))

theorem reach_closedUnderCandidates (hm : m.Coherent) (hrefs : m.checkRefs p = .ok ())
    (he : e ∈ m.defined p) :
    Closure.ClosedUnderCandidates m (scanScope m p callbacks) (reach m p callbacks e) := by
  intro f hf called hcalled g hg
  have hmember := (Model.mem_defined_iff.1 (reach_subset_defined hm hrefs he f hf)).1
  obtain ⟨hfine, hcandidates⟩ :=
    hm.candidates_eq_ok hrefs (TypeIndex.exact_ofProgram hm) hmember hcalled
  obtain ⟨site, hsite, hcall | ⟨hcallbacks, hpass⟩⟩ := (hcandidates g).1 hg
  · exact .tail hf (.pointer hsite (hfine site hsite) hcall)
  · exact .tail hf (.pass hcallbacks hsite (hfine site hsite) hpass)

/-- When every member of a set was scanned, the set is closed under what its
members lead to. -/
theorem mem_of_leads (hm : m.Coherent) (hrefs : m.checkRefs p = .ok ())
    {reachable : FunctionSet} (hmembers : reachable ⊆ m.members p)
    (hclosed : Closure.ClosedUnderCallees m (scanScope m p callbacks) {f | f ∈ reachable})
    (hsettled : ∀ f ∈ reachable, ∃ called,
      m.candidates (TypeIndex.ofProgram m p) callbacks f = .ok called ∧ called ⊆ reachable)
    {heeded : CallSite → Prop} :
    ∀ f ∈ reachable, ∀ g, m.Leads p callbacks heeded f g → g ∈ reachable := by
  intro f hf g hleads
  obtain ⟨called, hcalled, hsubset⟩ := hsettled f hf
  have hcandidates :=
    (hm.candidates_eq_ok hrefs (TypeIndex.exact_ofProgram hm) (hmembers hf) hcalled).2 g
  cases hleads with
  | call h =>
    obtain ⟨hcallee, hdefined⟩ := Model.calls_iff.1 h
    exact hclosed f hf g hcallee hdefined
  | pointer hsite _ h => exact hsubset (hcandidates.2 ⟨_, hsite, .inl h⟩)
  | pass hcallbacks hsite _ h => exact hsubset (hcandidates.2 ⟨_, hsite, .inr ⟨hcallbacks, h⟩⟩)

theorem mem_walk_self (he : e ∈ m.defined p) : e ∈ walk m m.staticCallees [] [e] := by
  rw [walk, dif_neg (by simp [(Model.mem_defined_iff.1 he).2, Model.contains])]
  exact List.mem_cons_self

/-- A walk from one function enters the least set around it that is closed
under direct calls. -/
theorem isLeast_walk (hm : m.Coherent) (hrefs : m.checkRefs p = .ok ())
    (he : e ∈ m.defined p) :
    IsLeast (ClosedFrom e m.Calls) {f | f ∈ walk m m.staticCallees [] [e]} := by
  have hwithin := hm.staticCallees_within hrefs
  have hstack : [e] ⊆ m.members p := by simpa using (Model.mem_defined_iff.1 he).1
  refine ⟨⟨mem_walk_self he, fun f hf g hcalls => ?_⟩, fun S hS => ?_⟩
  · obtain ⟨hcallee, hdefined⟩ := Model.calls_iff.1 hcalls
    simpa using mem_append_walk_of_mem_callees hm hwithin (List.nil_subset _) hstack f hf
      g hcallee hdefined
  · refine walk_subset ?_ fun f hf g hg hdefined _ => ?_
    · intro f hf _ _
      rw [List.mem_singleton.1 hf]
      exact hS.1
    · exact hS.2 f hf g (Model.calls_iff.2 ⟨hg, hdefined⟩)

/-- A query that scans call sites and returns a result has found the functions
that the entry leads to, and none of them has a malformed site. -/
def Completed (m : Model) (p : ProgramId) (callbacks : Bool) (e : FunctionId)
    (r : Result) : Prop :=
  r.entry = e ∧ r.direct = walk m m.staticCallees [] [e] ∧
    (∀ f, f ∈ r.reachable ↔ f ∈ reach m p callbacks e) ∧
    (∀ f ∈ r.reachable, ∀ g, m.Leads p callbacks (fun _ => True) f g → g ∈ r.reachable) ∧
    ∀ f ∈ r.reachable, ∀ site ∈ m.sites f, site.2.fault? = none

/-- A query that scans call sites and stops at a malformed one has found some
of the functions that the entry leads to, all those over direct calls among
them. -/
def Interrupted (m : Model) (p : ProgramId) (callbacks : Bool) (e : FunctionId)
    (bad : MalformedSite) (found : FunctionSet) : Prop :=
  (∃ f ∈ found, FirstFault (m.sites f) bad) ∧
    walk m m.staticCallees [] [e] ⊆ found ∧
    (∀ f ∈ found, f ∈ reach m p callbacks e) ∧
    ∀ f ∈ found, ∀ g, m.Calls f g → g ∈ found

/-- The fixpoint argument.  The closure starts with what the walk entered and
ends with an empty queue or in front of a malformed site. -/
theorem answer_cases (callbacks : Bool) (hm : m.Coherent) (hrefs : m.checkRefs p = .ok ())
    (he : e ∈ m.defined p) (hentry : entry.resolve m p = .ok e) :
    (∃ r, answer m p (scanScope m p callbacks) entry = .ok r ∧ Completed m p callbacks e r) ∨
    (∃ bad found, answer m p (scanScope m p callbacks) entry = .error (.malformed bad found) ∧
      Interrupted m p callbacks e bad found) := by
  obtain ⟨scanned, queue, hfrontier, hsubset, hends⟩ :=
    closureOf_ends hm hrefs (hm.follows_scanScope hrefs callbacks) reach_closedUnderCallees
      (reach_closedUnderCandidates hm hrefs he) he .refl
  rcases hends with ⟨rfl, hnone⟩ | ⟨f, rest, bad, rfl, hbad, hsome⟩
  · refine .inl ⟨_, answer_eq_ok hentry hnone, rfl, rfl, ?_⟩
    generalize (closureOf m (scanScope m p callbacks) e).reachable = reachable at hfrontier hsubset
    have hsettled : ∀ f ∈ reachable, ∃ called,
        m.candidates (TypeIndex.ofProgram m p) callbacks f = .ok called ∧
          called ⊆ reachable := fun f hf =>
      hfrontier.settled f (by simpa using hfrontier.split.mem_iff.2 hf)
    have hleads {heeded : CallSite → Prop} : ∀ f ∈ reachable, ∀ g,
        m.Leads p callbacks heeded f g → g ∈ reachable :=
      mem_of_leads hm hrefs hfrontier.members hfrontier.closed hsettled
    refine ⟨fun f => ⟨hfrontier.bounded f, ?_⟩, hleads, ?_⟩
    · have hentered : e ∈ reachable := hsubset (mem_walk_self he)
      exact fun hf => (isLeast_closedFrom e _).2 ⟨hentered, hleads⟩ hf
    · intro f hf
      obtain ⟨called, hcalled, -⟩ := hsettled f hf
      exact (hm.candidates_eq_ok hrefs (TypeIndex.exact_ofProgram hm) (hfrontier.members hf)
        hcalled).1
  · refine .inr ⟨bad, _, answer_eq_malformed hentry hsome, ?_⟩
    refine ⟨⟨f, hfrontier.front.1, candidatesFrom_eq_error_iff.1 hbad⟩, hsubset,
      hfrontier.bounded, ?_⟩
    intro g hg h hcalls
    obtain ⟨hcallee, hdefined⟩ := Model.calls_iff.1 hcalls
    exact hfrontier.closed g hg h hcallee hdefined

end Fixpoint

/-! ## The two readings -/

section Query

variable {a : Analysis} {w : Workspace} {entry : Entry} {e : FunctionId}

/-- A query that returns a result has found the least set around the entry that
is closed under direct calls, under the candidates of indirect calls and, with
`callbacks`, under the functions that are passed.  Beside it stands the least
set that is closed under direct calls alone. -/
theorem Analysis.query_isLeast (hmade : w.model.Made)
    (hvalid : w.model.checkRefs a.program = .ok ()) (hscan : a.usesGraph = false)
    (he : e ∈ w.model.defined a.program)
    (hentry : entry = .function e ∨ entry = .named (w.model.name e)) {r : Result}
    (hr : (a.query w entry).value = .ok r) :
    IsLeast (ClosedFrom e (w.model.Leads a.program a.callbacks fun _ => True))
        {f | f ∈ r.reachable} ∧
      IsLeast (ClosedFrom e w.model.Calls) {f | f ∈ r.direct} ∧
      (a.directlyReached w entry).value = .ok r.direct := by
  have hm := hmade.coherent
  have hresolve := hm.resolve_of_mem_defined he hentry
  rw [query_value_of_scan hscan] at hr
  rcases answer_cases a.callbacks hm hvalid he hresolve with
    ⟨r', hr', -, hdirect, hreachable, hclosed, -⟩ | ⟨bad, found, hbad, -⟩
  · obtain rfl : r' = r := by simpa [hr'] using hr
    refine ⟨⟨⟨(hreachable e).2 .refl, hclosed⟩, fun S hS f hf => ?_⟩, ?_, ?_⟩
    · refine (isLeast_closedFrom e _).2 ⟨hS.1, fun g hg h hleads => hS.2 g hg h ?_⟩
        ((hreachable f).1 hf)
      cases hleads with
      | call h => exact .call h
      | pointer hsite _ h => exact .pointer hsite trivial h
      | pass hcallbacks hsite _ h => exact .pass hcallbacks hsite trivial h
    · rw [hdirect]
      exact isLeast_walk hm hvalid he
    · rw [directlyReached_value_of_scan hscan w hresolve, hdirect]
  · simp [hbad] at hr

/-- In the small program `main` leads to everything but `log` and `idle`. -/
theorem Analysis.query_isLeast_relay :
    IsLeast (ClosedFrom ⟨0⟩ (Model.Relay.model.Leads ⟨0⟩ true fun _ => True))
        {f | f ∈ ([⟨0⟩, ⟨1⟩, ⟨3⟩, ⟨4⟩] : List FunctionId)} ∧
      IsLeast (ClosedFrom ⟨0⟩ Model.Relay.model.Calls)
        {f | f ∈ ([⟨0⟩, ⟨1⟩] : List FunctionId)} ∧
      ((⟨⟨0⟩, none, false, true⟩ : Analysis).directlyReached ⟨Model.Relay.model, #[]⟩
        (.named "main")).value = .ok [⟨0⟩, ⟨1⟩] := by
  have hr : ((⟨⟨0⟩, none, false, true⟩ : Analysis).query ⟨Model.Relay.model, #[]⟩
      (.named "main")).value =
        .ok ⟨⟨0⟩, ⟨0⟩, [⟨0⟩, ⟨1⟩, ⟨3⟩, ⟨4⟩], [⟨0⟩, ⟨1⟩], none⟩ := by
    rw [query_value_of_scan rfl]
    cbv
  exact query_isLeast (a := ⟨⟨0⟩, none, false, true⟩) (w := ⟨Model.Relay.model, #[]⟩)
    Model.Relay.made rfl rfl (e := ⟨0⟩) (by decide) (.inr rfl) hr

/-- A query stops at a malformed call site exactly when it can get to one over
direct calls and well-formed call sites, and otherwise it returns what it can
get to.  The site that it reports is the first malformed one of a function that
was found, and what was found lies between the functions over direct calls and
those that it can get to, and is closed under direct calls. -/
theorem Analysis.query_malformed_iff (hmade : w.model.Made)
    (hvalid : w.model.checkRefs a.program = .ok ()) (hscan : a.usesGraph = false)
    (he : e ∈ w.model.defined a.program)
    (hentry : entry = .function e ∨ entry = .named (w.model.name e)) :
    ∃ R, IsLeast (ClosedFrom e (w.model.Leads a.program a.callbacks CallSite.WellFormed)) R ∧
      ((∃ bad found, (a.query w entry).value = .error (.malformed bad found)) ↔
        ∃ f ∈ R, ∃ site ∈ w.model.sites f, ¬site.2.WellFormed) ∧
      ((∀ f ∈ R, ∀ site ∈ w.model.sites f, site.2.WellFormed) →
        ∃ r, (a.query w entry).value = .ok r ∧ {f | f ∈ r.reachable} = R) ∧
      ∀ bad found, (a.query w entry).value = .error (.malformed bad found) →
        (∃ f ∈ found, FirstFault (w.model.sites f) bad) ∧
        (∃ direct, (a.directlyReached w entry).value = .ok direct ∧ direct ⊆ found) ∧
        (∀ f ∈ found, f ∈ R) ∧ ∀ f ∈ found, ∀ g, w.model.Calls f g → g ∈ found := by
  have hm := hmade.coherent
  have hresolve := hm.resolve_of_mem_defined he hentry
  refine ⟨reach w.model a.program a.callbacks e, isLeast_closedFrom e _, ?_⟩
  rw [query_value_of_scan hscan, directlyReached_value_of_scan hscan w hresolve]
  rcases answer_cases a.callbacks hm hvalid he hresolve with
    ⟨r, hr, -, -, hreachable, -, hfine⟩ | ⟨bad, found, hbad, hfirst, hdirect, hbound, hclosed⟩
  · have hfineReach : ∀ f ∈ reach w.model a.program a.callbacks e,
        ∀ site ∈ w.model.sites f, site.2.WellFormed :=
      fun f hf => hfine f ((hreachable f).2 hf)
    refine ⟨⟨?_, ?_⟩, fun _ => ⟨r, hr, Set.ext hreachable⟩, ?_⟩
    · rintro ⟨bad, found, hbad⟩
      simp [hr] at hbad
    · rintro ⟨f, hf, site, hsite, hnot⟩
      exact absurd (hfineReach f hf site hsite) hnot
    · intro bad found hbad
      simp [hr] at hbad
  · -- The function whose scan failed is among those found.
    obtain ⟨f, hf, hfault⟩ := hfirst
    obtain ⟨site, hsite, hnot⟩ := hfault.exists_not_wellFormed
    refine ⟨⟨fun _ => ⟨f, hbound f hf, site, hsite, hnot⟩, fun _ => ⟨bad, found, hbad⟩⟩, ?_, ?_⟩
    · intro hall
      exact absurd (hall f (hbound f hf) site hsite) hnot
    · intro bad' found' hbad'
      obtain ⟨rfl, rfl⟩ : bad = bad' ∧ found = found' := by simpa [hbad] using hbad'
      exact ⟨⟨f, hf, hfault⟩, ⟨_, rfl, hdirect⟩, hbound, hclosed⟩

/-- In the small program a query from `idle` gets to the call without a type,
and reports it with what was found before. -/
theorem Analysis.query_malformed_iff_relay :
    ((⟨⟨0⟩, none, false, true⟩ : Analysis).query ⟨Model.Relay.model, #[]⟩
        (.function ⟨5⟩)).value =
      .error (.malformed ⟨⟨⟨⟨5⟩, 0⟩, 1⟩, .missingSignature⟩ [⟨5⟩, ⟨0⟩, ⟨1⟩]) ∧
    ∃ R, IsLeast (ClosedFrom ⟨5⟩ (Model.Relay.model.Leads ⟨0⟩ true CallSite.WellFormed)) R ∧
      (∃ f ∈ R, ∃ site ∈ Model.Relay.model.sites f, ¬site.2.WellFormed) ∧
      ∀ f ∈ ([⟨5⟩, ⟨0⟩, ⟨1⟩] : List FunctionId), f ∈ R := by
  have hbad : ((⟨⟨0⟩, none, false, true⟩ : Analysis).query ⟨Model.Relay.model, #[]⟩
      (.function ⟨5⟩)).value =
        .error (.malformed ⟨⟨⟨⟨5⟩, 0⟩, 1⟩, .missingSignature⟩ [⟨5⟩, ⟨0⟩, ⟨1⟩]) := by
    rw [query_value_of_scan rfl]
    cbv
  obtain ⟨R, hleast, hiff, -, hpartial⟩ :=
    query_malformed_iff (a := ⟨⟨0⟩, none, false, true⟩) (w := ⟨Model.Relay.model, #[]⟩)
      Model.Relay.made rfl rfl (e := ⟨5⟩) (by decide) (.inl rfl)
  exact ⟨hbad, R, hleast, hiff.1 ⟨_, _, hbad⟩, (hpartial _ _ hbad).2.2.1⟩

end Query

end CallReach
