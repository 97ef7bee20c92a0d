import CallReach.Pass
import CallReach.Proofs.CallGraph.Lookups
import CallReach.Proofs.Reachability.Exploration
import CallReach.Proofs.Source.Analysable

/-!
# A pass never fails its host

A host visits one pass again and again, with programs that need not be
consistent and with call graphs that may be outdated, belong to another program
or have been changed.  `Served` says what each visit is: which of them have no
result and what is kept as the last failure, that a result is that of an analysis
with the same options and graph, and that programs and graphs stay as they are.

* What a query follows is `Analysis.scope`, and `Request.found` are the functions
  that it finds, in any program.
* `served` is the step: one visit, whatever failure was kept before it.
* `visits_served` is the run: all visits, one after the other.
-/

namespace CallReach

/-- What a query of an analysis follows in a workspace. -/
def Analysis.scope (a : Analysis) (w : Workspace) : Scope :=
  ⟨(a.refresh w).workspace.callees (a.refresh w).value, TypeIndex.ofProgram w.model a.program,
    a.callbacks⟩

/-- A query adds at most one graph to the workspace. -/
theorem Analysis.refresh_workspace (a : Analysis) (w : Workspace) :
    (a.refresh w).workspace = w ∨ (a.refresh w).workspace = (w.buildGraph a.program).1 := by
  unfold refresh
  split
  · exact .inl rfl
  · split
    · exact .inr rfl
    · split
      · exact .inr rfl
      · exact .inl rfl

theorem Analysis.query_workspace (a : Analysis) (w : Workspace) (entry : Entry) :
    (a.query w entry).workspace = w ∨
      (a.query w entry).workspace = (w.buildGraph a.program).1 := by
  unfold query
  cases entry.resolve w.model a.program with
  | error fault => exact .inl rfl
  | ok e =>
    have hrefresh := a.refresh_workspace w
    dsimp only
    split <;> exact hrefresh

namespace Pass

/-! ## Requests -/

/-- What a host asks of a pass: a program in a workspace as it stands, with a
call graph if it has one, and whether details are logged. -/
structure Request where
  workspace : Workspace
  program : ProgramId
  graph : Option GraphId
  detailed : Bool

/-- The visits of a host, one after the other. -/
def visits (pass : Pass) : List Request → List Visit
  | [] => []
  | request :: rest =>
      let visit := pass.visit request.workspace request.program request.graph request.detailed
      visit :: visit.pass.visits rest

namespace Request

variable (request : Request) (options : Options)

/-- The graph of the request belongs to another program. -/
def Foreign : Prop :=
  ∃ g ∈ request.graph, (request.workspace.graph g).program ≠ request.program

/-- A function is the entry of the options: a defined function of the program
that has the name. -/
def Entered (e : FunctionId) : Prop :=
  e ∈ request.workspace.model.defined request.program ∧
    request.workspace.model.name e = options.entry

/-- The analysis that answers the request. -/
def analysis : Analysis :=
  ⟨request.program, request.graph, options.usesGraph, options.callbacks⟩

/-- What the analysis follows. -/
def scope : Scope :=
  (request.analysis options).scope request.workspace

/-- The functions that the query finds from an entry before it ends. -/
def found (e : FunctionId) : FunctionSet :=
  (closureOf request.workspace.model (request.scope options) e).reachable

/-- The query meets a malformed call site: the entry has been found, and some
function that was found has such a site. -/
def Malformed : Prop :=
  ∃ e, request.Entered options e ∧ ∃ f ∈ request.found options e,
    ∃ site ∈ request.workspace.model.sites f, ¬site.2.WellFormed

end Request

/-- What a visit of a pass with these options is, for a request. -/
structure Served (options : Options) (request : Request) (visit : Visit) : Prop where
  /-- Nothing is looked up in vain when graphs are built and measured. -/
  lookups : CallGraph.LookupsSucceed request.workspace.model request.program
  options_eq : visit.pass.options = options
  result_eq_none_iff : visit.result = none ↔
    request.Foreign ∨ (∀ e, ¬request.Entered options e) ∨ request.Malformed options
  lastError_eq_none_iff : visit.pass.lastError = none ↔ visit.result ≠ none
  /-- The failures, in the order in which they are noticed. -/
  foreign : request.Foreign → visit.pass.lastError = some .foreignGraph
  missing : ¬request.Foreign → (∀ e, ¬request.Entered options e) →
    ∃ fault, visit.pass.lastError = some (.missingEntry options.entry fault)
  malformed : ¬request.Foreign → ∀ e, request.Entered options e → request.Malformed options →
    ∃ bad, (∃ f ∈ request.found options e, FirstFault (request.workspace.model.sites f) bad) ∧
      visit.pass.lastError = some (.malformed bad (request.found options e))
  /-- A result is that of a query, with its figures where details are logged. -/
  result : ∀ r, visit.result = some r → ∃ analysis answered,
    Analysis.create request.workspace request.program request.graph options.usesGraph
        options.callbacks = .ok analysis ∧
      (analysis.query request.workspace (.named options.entry)).value = .ok answered ∧
      r = { answered with
        kept := if request.detailed then some (answered.measure request.workspace.model).1
          else none }
  /-- The entry leads to all that is found, and a query with a result has found
  all that they lead to. -/
  found : ∀ e, request.Entered options e → e ∈ request.found options e ∧
    (∀ f ∈ request.found options e, Relation.ReflTransGen
      (Closure.Leads request.workspace.model (request.scope options)) e f) ∧
    ∀ r, visit.result = some r → r.reachable = request.found options e ∧
      ∀ f ∈ r.reachable, ∀ g,
        Closure.Leads request.workspace.model (request.scope options) f g →
          request.workspace.model.contains r.reachable g = true
  /-- The programs and the graphs of the host stay as they are. -/
  model_eq : visit.workspace.model = request.workspace.model
  graph_eq : ∀ g : GraphId, g.index < request.workspace.graphs.size →
    visit.workspace.graph g = request.workspace.graph g

/-! ## One visit -/

section Visit

variable {options : Options} {request : Request}

theorem create_of_foreign (hforeign : request.Foreign) :
    Analysis.create request.workspace request.program request.graph options.usesGraph
      options.callbacks = .error .foreignGraph := by
  obtain ⟨g, hg, hother⟩ := hforeign
  obtain ⟨w, p, graph, detailed⟩ := request
  obtain rfl : graph = some g := hg
  exact if_neg hother

theorem create_of_not_foreign (hown : ¬request.Foreign) :
    Analysis.create request.workspace request.program request.graph options.usesGraph
      options.callbacks = .ok (request.analysis options) := by
  obtain ⟨w, p, graph, detailed⟩ := request
  cases graph with
  | none => rfl
  | some g =>
    have hsame : (w.graph g).program = p := by
      by_contra hother
      exact hown ⟨g, rfl, hother⟩
    exact if_pos hsame

/-- A run refuses a foreign graph, or it hands on what the query of the analysis
gives. -/
theorem run_cases (options : Options) (request : Request) :
    let outcome := run options request.workspace request.program request.graph request.detailed
    let answer := (request.analysis options).query request.workspace (.named options.entry)
    (request.Foreign ∧ outcome.workspace = request.workspace ∧
        outcome.result = .error .foreignGraph) ∨
      ¬request.Foreign ∧ outcome.workspace = answer.workspace ∧
        outcome.result = answer.value.map fun r =>
          if request.detailed then (listing request.workspace.model r).1 else r := by
  intro outcome answer
  by_cases hforeign : request.Foreign
  · refine .inl ⟨hforeign, ?_⟩
    simp [outcome, run, create_of_foreign hforeign]
  · refine .inr ⟨hforeign, ?_⟩
    simp only [outcome, run, create_of_not_foreign hforeign]
    cases hvalue : answer.value with
    | error fault => exact ⟨rfl, rfl⟩
    | ok r => dsimp only; split <;> exact ⟨rfl, rfl⟩

/-- The query refuses the entry, or it meets a malformed call site, or it has a
result. -/
theorem query_cases (options : Options) (hmade : request.workspace.model.Made) :
    let value := ((request.analysis options).query request.workspace
      (.named options.entry)).value
    ((∀ e, ¬request.Entered options e) ∧
        ∃ fault, value = .error (.missingEntry options.entry fault)) ∨
      ∃ e, request.Entered options e ∧
        ((∃ bad, (∃ f ∈ request.found options e,
              FirstFault (request.workspace.model.sites f) bad) ∧
            value = .error (.malformed bad (request.found options e))) ∨
          (∀ f ∈ request.found options e, ∀ site ∈ request.workspace.model.sites f,
              site.2.WellFormed) ∧
            value = .ok ⟨request.program, e, request.found options e,
              walk request.workspace.model (request.scope options).callees [] [e], none⟩) := by
  intro value
  have hm := hmade.coherent
  have hvalue : value = answer request.workspace.model request.program (request.scope options)
      (.named options.entry) := Analysis.query_value _ _ _
  cases hresolve : (Entry.named options.entry).resolve request.workspace.model request.program with
  | error fault =>
    obtain ⟨name, reason, rfl, hname⟩ := Entry.eq_missingEntry_of_resolve hm hresolve
    obtain rfl := hname options.entry rfl
    refine .inl ⟨fun e he => ?_, reason, ?_⟩
    · obtain ⟨f, hf⟩ := (Entry.exists_resolve_named_iff hm).2 ⟨e, he.1, he.2⟩
      rw [hresolve] at hf
      cases hf
    · rw [hvalue, answer, hresolve]
  | ok e =>
    obtain ⟨hfind, hdefined⟩ := Entry.resolve_named_eq_ok_iff.1 hresolve
    obtain ⟨text, htext, hfind⟩ := Model.findWide?_eq_some_iff.1 hfind
    have hentered : request.Entered options e :=
      ⟨hm.mem_defined_of_resolve hresolve, by rw [hm.name_of_find? hfind, htext]⟩
    refine .inr ⟨e, hentered, ?_⟩
    cases hmalformed : (closureOf request.workspace.model (request.scope options) e).malformed with
    | some bad =>
      refine .inl ⟨bad, firstFault_of_closureOf hmalformed, ?_⟩
      rw [hvalue, answer_eq_malformed hresolve hmalformed, Request.found]
    | none =>
      refine .inr ⟨closureOf_malformed_eq_none_iff.1 hmalformed, ?_⟩
      rw [hvalue, answer_eq_ok hresolve hmalformed, Request.found]

theorem Request.Entered.unique (hmade : request.workspace.model.Made) {e f : FunctionId}
    (he : request.Entered options e) (hf : request.Entered options f) : e = f :=
  hmade.coherent.eq_of_name_eq (Model.mem_defined_iff.1 he.1).1 (Model.mem_defined_iff.1 hf.1).1
    (Text.Wide.whole.inj (he.2.trans hf.2.symm))

/-- What a request finds, in any program. -/
theorem Request.found_spec {e : FunctionId} (he : request.Entered options e) :
    e ∈ request.found options e ∧
      (∀ f ∈ request.found options e, Relation.ReflTransGen
        (Closure.Leads request.workspace.model (request.scope options)) e f) ∧
      ((∀ f ∈ request.found options e, ∀ site ∈ request.workspace.model.sites f,
          site.2.WellFormed) →
        ∀ f ∈ request.found options e, ∀ g,
          Closure.Leads request.workspace.model (request.scope options) f g →
            request.workspace.model.contains (request.found options e) g = true) :=
  ⟨mem_closureOf (Model.mem_defined_iff.1 he.1).2, closureOf_led _ _ _,
    fun hwell => closureOf_contains (closureOf_malformed_eq_none_iff.2 hwell)⟩

/-- The figures of a fresh result are kept with it when details are logged. -/
theorem listing_fst {m : Model} {r : Result} (hfresh : r.kept = none) :
    (listing m r).1 = { r with kept := some (r.measure m).1 } := by
  simp [listing, Result.figures, hfresh]

theorem run_workspace (options : Options) (request : Request) :
    (run options request.workspace request.program request.graph request.detailed).workspace =
        request.workspace ∨
      (run options request.workspace request.program request.graph request.detailed).workspace =
        (request.workspace.buildGraph request.program).1 := by
  rcases run_cases options request with ⟨-, hsame, -⟩ | ⟨-, hworkspace, -⟩
  · exact .inl hsame
  · rw [hworkspace]
    exact (request.analysis options).query_workspace _ _

/-- The four ways in which a visit ends. -/
inductive Ending (options : Options) (request : Request) (visit : Visit) : Prop where
  | foreign (hforeign : request.Foreign) (hnone : visit.result = none)
      (herror : visit.pass.lastError = some .foreignGraph)
  | missing {fault : EntryFault} (hown : ¬request.Foreign)
      (hmissing : ∀ e, ¬request.Entered options e) (hnone : visit.result = none)
      (herror : visit.pass.lastError = some (.missingEntry options.entry fault))
  | malformed {e f : FunctionId} {bad : MalformedSite} (hown : ¬request.Foreign)
      (he : request.Entered options e) (hf : f ∈ request.found options e)
      (hfault : FirstFault (request.workspace.model.sites f) bad) (hnone : visit.result = none)
      (herror : visit.pass.lastError = some (.malformed bad (request.found options e)))
  | answered {e : FunctionId} {r : Result} (hown : ¬request.Foreign)
      (he : request.Entered options e)
      (hwell : ∀ f ∈ request.found options e, ∀ site ∈ request.workspace.model.sites f,
        site.2.WellFormed)
      (hvalue : ((request.analysis options).query request.workspace
        (.named options.entry)).value = .ok r)
      (hreachable : r.reachable = request.found options e)
      (herror : visit.pass.lastError = none)
      (hresult : visit.result = some { r with
        kept := if request.detailed then some (r.measure request.workspace.model).1 else none })

theorem ending (pass : Pass) (hmade : request.workspace.model.Made) :
    Ending pass.options request
      (pass.visit request.workspace request.program request.graph request.detailed) := by
  have hrefused : ∀ fault, (run pass.options request.workspace request.program request.graph
      request.detailed).result = .error fault →
      (pass.visit request.workspace request.program request.graph request.detailed).result = none ∧
        (pass.visit request.workspace request.program request.graph
          request.detailed).pass.lastError = some fault := by
    intro fault hfault
    simp [visit, hfault]
  rcases run_cases pass.options request with ⟨hforeign, -, hresult⟩ | ⟨hown, -, hresult⟩
  · obtain ⟨hnone, herror⟩ := hrefused _ hresult
    exact .foreign hforeign hnone herror
  · rcases query_cases pass.options hmade with
      ⟨hmissing, fault, hvalue⟩ | ⟨e, he, ⟨bad, ⟨f, hf, hfault⟩, hvalue⟩ | ⟨hwell, hvalue⟩⟩
    · rw [hvalue] at hresult
      obtain ⟨hnone, herror⟩ := hrefused _ hresult
      exact .missing hown hmissing hnone herror
    · rw [hvalue] at hresult
      obtain ⟨hnone, herror⟩ := hrefused _ hresult
      exact .malformed hown he hf hfault hnone herror
    · rw [hvalue, Except.map] at hresult
      refine .answered hown he hwell hvalue rfl (by simp [visit, hresult]) ?_
      simp only [visit, hresult]
      split
      · rw [listing_fst rfl]
      · rfl

theorem options_visit (pass : Pass) (w : Workspace) (p : ProgramId) (graph : Option GraphId)
    (detailed : Bool) : (pass.visit w p graph detailed).pass.options = pass.options := by
  unfold visit
  dsimp only
  split <;> rfl

theorem workspace_visit (pass : Pass) (w : Workspace) (p : ProgramId) (graph : Option GraphId)
    (detailed : Bool) :
    (pass.visit w p graph detailed).workspace =
      (run pass.options w p graph detailed).workspace := by
  unfold visit
  dsimp only
  split <;> rfl

namespace Ending

variable {visit : Visit}

/-- Which visits have no result. -/
theorem result_eq_none_iff (h : Ending options request visit)
    (hmade : request.workspace.model.Made) :
    visit.result = none ↔
      request.Foreign ∨ (∀ e, ¬request.Entered options e) ∨ request.Malformed options := by
  cases h with
  | foreign hforeign hnone => simp [hnone, hforeign]
  | missing hown hmissing hnone => simp [hnone, hmissing]
  | @malformed e f bad hown he hf hfault hnone =>
    have hmalformed : request.Malformed options := ⟨e, he, f, hf, hfault.exists_not_wellFormed⟩
    simp [hnone, hmalformed]
  | @answered e r hown he hwell hvalue hreachable herror hresult =>
    simp only [hresult, reduceCtorEq, hown, false_or, false_iff, not_or]
    refine ⟨fun hmissing => hmissing e he, ?_⟩
    rintro ⟨other, hother, f, hf, site, hsite, hbad⟩
    obtain rfl := he.unique hmade hother
    exact hbad (hwell f hf site hsite)

theorem lastError_eq_none_iff (h : Ending options request visit) :
    visit.pass.lastError = none ↔ visit.result ≠ none := by
  cases h with
  | foreign _ hnone herror => simp [hnone, herror]
  | missing _ _ hnone herror => simp [hnone, herror]
  | malformed _ _ _ _ hnone herror => simp [hnone, herror]
  | answered _ _ _ _ _ herror hresult => simp [hresult, herror]

theorem lastError_of_foreign (h : Ending options request visit) (hforeign : request.Foreign) :
    visit.pass.lastError = some .foreignGraph := by
  cases h with
  | foreign _ _ herror => exact herror
  | missing hown | malformed hown | answered hown => exact absurd hforeign hown

theorem lastError_of_missing (h : Ending options request visit) (hown : ¬request.Foreign)
    (hmissing : ∀ e, ¬request.Entered options e) :
    ∃ fault, visit.pass.lastError = some (.missingEntry options.entry fault) := by
  cases h with
  | foreign hforeign => exact absurd hforeign hown
  | missing _ _ _ herror => exact ⟨_, herror⟩
  | malformed _ he | answered _ he => exact absurd he (hmissing _)

theorem lastError_of_malformed (h : Ending options request visit)
    (hmade : request.workspace.model.Made) (hown : ¬request.Foreign) {e : FunctionId}
    (he : request.Entered options e) (hmalformed : request.Malformed options) :
    ∃ bad, (∃ f ∈ request.found options e, FirstFault (request.workspace.model.sites f) bad) ∧
      visit.pass.lastError = some (.malformed bad (request.found options e)) := by
  obtain ⟨other, hother, f, hf, site, hsite, hbad⟩ := hmalformed
  obtain rfl := he.unique hmade hother
  cases h with
  | foreign hforeign => exact absurd hforeign hown
  | missing _ hmissing => exact absurd he (hmissing e)
  | @malformed _ first bad _ hk hfirst hfault _ herror =>
    obtain rfl := he.unique hmade hk
    exact ⟨bad, ⟨first, hfirst, hfault⟩, herror⟩
  | answered _ hk hwell =>
    obtain rfl := he.unique hmade hk
    exact absurd (hwell f hf site hsite) hbad

/-- A visit with a result has been answered. -/
theorem of_result (h : Ending options request visit) (hmade : request.workspace.model.Made)
    {r : Result} (hr : visit.result = some r) :
    ¬request.Foreign ∧
      (∃ answered, ((request.analysis options).query request.workspace
          (.named options.entry)).value = .ok answered ∧
        r = { answered with
          kept := if request.detailed then some (answered.measure request.workspace.model).1
            else none }) ∧
      ∀ e, request.Entered options e → r.reachable = request.found options e ∧
        ∀ f ∈ request.found options e, ∀ site ∈ request.workspace.model.sites f,
          site.2.WellFormed := by
  cases h with
  | foreign _ hnone | missing _ _ hnone | malformed _ _ _ _ hnone => simp [hnone] at hr
  | answered hown hk hwell hvalue hreachable _ hresult =>
    rw [hresult] at hr
    obtain rfl := Option.some.inj hr
    refine ⟨hown, ⟨_, hvalue, rfl⟩, fun e he => ?_⟩
    obtain rfl := he.unique hmade hk
    exact ⟨hreachable, hwell⟩

end Ending

/-- The step: a visit serves its request, whatever failure was kept before. -/
theorem served (pass : Pass) (hmade : request.workspace.model.Made) :
    Served pass.options request
      (pass.visit request.workspace request.program request.graph request.detailed) := by
  have hending := ending pass hmade
  have hoptions := pass.options_visit request.workspace request.program request.graph
    request.detailed
  have hkept := run_workspace pass.options request
  rw [← workspace_visit] at hkept
  generalize pass.visit request.workspace request.program request.graph request.detailed = visit
    at hending hoptions hkept
  constructor
  case lookups => exact CallGraph.lookupsSucceed _ _
  case options_eq => exact hoptions
  case result_eq_none_iff => exact hending.result_eq_none_iff hmade
  case lastError_eq_none_iff => exact hending.lastError_eq_none_iff
  case foreign => exact hending.lastError_of_foreign
  case missing => exact hending.lastError_of_missing
  case malformed => exact fun hown _ => hending.lastError_of_malformed hmade hown
  case result =>
    intro r hr
    obtain ⟨hown, ⟨answered, hvalue, rfl⟩, -⟩ := hending.of_result hmade hr
    exact ⟨_, answered, create_of_not_foreign hown, hvalue, rfl⟩
  case found =>
    intro e he
    obtain ⟨hself, hled, hclosed⟩ := Request.found_spec he
    refine ⟨hself, hled, fun r hr => ?_⟩
    obtain ⟨-, -, hfound⟩ := hending.of_result hmade hr
    obtain ⟨hreachable, hwell⟩ := hfound e he
    rw [hreachable]
    exact ⟨rfl, hclosed hwell⟩
  case model_eq =>
    rcases hkept with hsame | hbuilt
    · rw [hsame]
    · rw [hbuilt]
      rfl
  case graph_eq =>
    intro g hg
    rcases hkept with hsame | hbuilt
    · rw [hsame]
    · rw [hbuilt]
      simp [Workspace.graph, Workspace.buildGraph, Array.getD_eq_getD_getElem?,
        Array.getElem?_push, Nat.ne_of_lt hg]

end Visit

/-! ## All visits -/

/-- Every visit of one pass serves its request, in any order and number.  The
programs need not be consistent, and the graphs may be any. -/
theorem visits_served (options : Options) {requests : List Request}
    (hmade : ∀ request ∈ requests, request.workspace.model.Made) :
    List.Forall₂ (Served options) requests ((create options).visits requests) := by
  have hrun : ∀ pass : Pass,
      List.Forall₂ (Served pass.options) requests (pass.visits requests) := by
    induction requests with
    | nil => exact fun _ => .nil
    | cons request rest ih =>
      obtain ⟨hfirst, hrest⟩ := List.forall_mem_cons.1 hmade
      intro pass
      have hserved := served pass hfirst
      refine .cons hserved ?_
      have hlater := ih hrest (pass.visit request.workspace request.program request.graph
        request.detailed).pass
      rwa [hserved.options_eq] at hlater
  exact hrun (create options)

/-- A host gives the small program with a graph in which someone has added a
call from `main` to `idle`, and then without a graph.  The first visit meets the
malformed call site of `idle`; the second one has a result, and nothing is left
of the failure. -/
theorem visits_served_relay :
    let tampered := (CallGraph.build Model.Relay.model ⟨0⟩).connect ⟨⟨1⟩, ⟨6⟩, none, .direct⟩
    ∃ first second, (create .standard).visits
        [⟨⟨Model.Relay.model, #[tampered]⟩, ⟨0⟩, some ⟨0⟩, true⟩,
         ⟨⟨Model.Relay.model, #[]⟩, ⟨0⟩, none, true⟩] = [first, second] ∧
      (∃ bad found, first.pass.lastError = some (.malformed bad found) ∧ ⟨5⟩ ∈ found) ∧
      second.pass.lastError = none ∧
      ∃ r, second.result = some r ∧ r.reachable = [⟨0⟩, ⟨1⟩, ⟨3⟩, ⟨4⟩] := by
  intro tampered
  let one : Request := ⟨⟨Model.Relay.model, #[tampered]⟩, ⟨0⟩, some ⟨0⟩, true⟩
  let two : Request := ⟨⟨Model.Relay.model, #[]⟩, ⟨0⟩, none, true⟩
  have hserved : List.Forall₂ (Served .standard) [one, two]
      ((create .standard).visits [one, two]) :=
    visits_served .standard (by simp [one, two, Model.Relay.made])
  obtain ⟨first, second, hvisits⟩ : ∃ first second,
      (create .standard).visits [one, two] = [first, second] := ⟨_, _, rfl⟩
  rw [hvisits] at hserved
  obtain ⟨hfirst, hsecond⟩ : Served .standard one first ∧ Served .standard two second := by
    simpa [List.forall₂_cons] using hserved
  refine ⟨first, second, hvisits, ?_, ?_⟩
  · have hentered : one.Entered .standard ⟨0⟩ := ⟨by decide, rfl⟩
    have hown : ¬one.Foreign := by
      rintro ⟨g, hg, hother⟩
      cases hg
      exact hother rfl
    have hidle : ⟨5⟩ ∈ one.found .standard ⟨0⟩ := by
      obtain ⟨scanned, queue, -, hsubset, -⟩ :=
        closureOf_explored Model.Relay.model (one.scope .standard) ⟨0⟩
      have hmain : (one.scope .standard).callees ⟨0⟩ = [⟨1⟩, ⟨5⟩] := by decide +kernel
      have hstep : (one.scope .standard).callees ⟨1⟩ = [⟨0⟩, ⟨2⟩] := by decide +kernel
      refine hsubset ?_
      -- The walk enters `main` and `step`, skips what `step` calls, and enters `idle`.
      rw [walk, dif_neg (by decide), hmain, List.append_nil, walk, dif_neg (by decide), hstep]
      simp only [List.cons_append, List.nil_append]
      rw [walk, dif_pos (by decide), walk, dif_pos (by decide), walk, dif_neg (by decide)]
      simp
    have hmalformed : one.Malformed .standard :=
      ⟨⟨0⟩, hentered, ⟨5⟩, hidle, (⟨⟨⟨5⟩, 0⟩, 1⟩, ⟨.absent, none, [], .call⟩), by decide,
        by simp [CallSite.WellFormed, CallSite.fault?]⟩
    obtain ⟨bad, -, hbad⟩ := hfirst.malformed hown ⟨0⟩ hentered hmalformed
    exact ⟨bad, _, hbad, hidle⟩
  · have hentered : two.Entered .standard ⟨0⟩ := ⟨by decide, rfl⟩
    have hfound : two.found .standard ⟨0⟩ = [⟨0⟩, ⟨1⟩, ⟨3⟩, ⟨4⟩] := by
      cbv
    have hanswered : second.result ≠ none := by
      rw [ne_eq, hsecond.result_eq_none_iff]
      rintro (⟨g, hg, -⟩ | hmissing | ⟨e, he, f, hf, site, hsite, hbad⟩)
      · cases hg
      · exact hmissing ⟨0⟩ hentered
      · obtain rfl := he.unique Model.Relay.made hentered
        rw [hfound] at hf
        have hwell : ∀ f ∈ ([⟨0⟩, ⟨1⟩, ⟨3⟩, ⟨4⟩] : List FunctionId),
            ∀ site ∈ Model.Relay.model.sites f, site.2.fault? = none := by
          decide
        exact hbad (hwell f hf site hsite)
    refine ⟨hsecond.lastError_eq_none_iff.2 hanswered, ?_⟩
    obtain ⟨r, hr⟩ := Option.ne_none_iff_exists.1 hanswered
    exact ⟨r, hr.symm, ((hsecond.found ⟨0⟩ hentered).2.2 r hr.symm).1.trans hfound⟩

end Pass

end CallReach
