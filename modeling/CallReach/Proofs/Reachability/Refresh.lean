import CallReach.Proofs.CallGraph.Building

/-!
# The graph in use

An analysis that walks keeps a call graph and builds another one when there is
none or when it is outdated.  `refresh_graph` says which graph a query gets, and
`query_value_eq_fresh` draws the conclusion: as long as the kept graph, where it
is not outdated, is an annotated version of the one that would be built now, a
query has the outcome that the program as it stands gives, and the graph leaves
no trace in it.
-/

namespace CallReach

/-- The direct callees as a query sees them when its graph was just built. -/
def freshCallees (m : Model) (p : ProgramId) (usesGraph : Bool) (f : FunctionId) :
    List FunctionId :=
  if usesGraph then (CallGraph.build m p).functionCallees m f else m.staticCallees f

/-- What a query follows when its graph was just built. -/
def freshScope (m : Model) (p : ProgramId) (usesGraph callbacks : Bool) : Scope :=
  ⟨freshCallees m p usesGraph, TypeIndex.ofProgram m p, callbacks⟩

theorem Workspace.graph_buildGraph (w : Workspace) (p : ProgramId) :
    (w.buildGraph p).1.graph (w.buildGraph p).2 = CallGraph.build w.model p := by
  simp [buildGraph, graph]

namespace Analysis

variable {a : Analysis} {w : Workspace}

/-- The graph that an analysis walks is outdated, or it is the one that would be
built now, with annotations. -/
def GraphInStep (a : Analysis) (w : Workspace) : Prop :=
  a.usesGraph = true → ∀ g ∈ a.graph, (w.graph g).isOutdated w.model = false →
    CallGraph.Annotates (CallGraph.build w.model a.program) (w.graph g)

theorem graphInStep_of_current (hvalid : w.model.checkRefs a.program = .ok ())
    (hgraph : a.usesGraph = true → ∀ g ∈ a.graph, (w.graph g).isOutdated w.model = true ∨
      CallGraph.Current a.program w.model (w.graph g)) : a.GraphInStep w := by
  intro hwalk g hg hcurrent
  rcases hgraph hwalk g hg with houtdated | h
  · simp [houtdated] at hcurrent
  · exact h.annotates hvalid

/-- A query that walks gets a graph that was just built, or the kept one where
it is not outdated. -/
theorem refresh_graph (hwalk : a.usesGraph = true) :
    ∃ g, (a.refresh w).value = some g ∧ (a.refresh w).workspace.model = w.model ∧
      ((a.refresh w).workspace.graph g = CallGraph.build w.model a.program ∨
        g ∈ a.graph ∧ (w.graph g).isOutdated w.model = false ∧
          (a.refresh w).workspace.graph g = w.graph g) := by
  unfold refresh
  rw [if_neg (by simp [hwalk])]
  split
  · exact ⟨_, rfl, rfl, .inl (w.graph_buildGraph a.program)⟩
  · rename_i g hgiven
    split
    · exact ⟨_, rfl, rfl, .inl (w.graph_buildGraph a.program)⟩
    · rename_i hcurrent
      exact ⟨g, rfl, rfl, .inr ⟨hgiven, by simpa using hcurrent, rfl⟩⟩

/-- The graph of an analysis leaves no trace in what a query follows. -/
theorem refresh_callees (hgraph : a.GraphInStep w) :
    (a.refresh w).workspace.callees (a.refresh w).value =
      freshCallees w.model a.program a.usesGraph := by
  funext f
  cases hwalk : a.usesGraph with
  | false =>
    have hfresh : a.refresh w = ⟨w, a, [], none⟩ := by simp [refresh, hwalk]
    rw [hfresh]
    rfl
  | true =>
    obtain ⟨g, hvalue, hmodel, hcases⟩ := refresh_graph (w := w) hwalk
    have htidy := CallGraph.tidy_build w.model a.program
    have hannotates : CallGraph.Annotates (CallGraph.build w.model a.program)
        ((a.refresh w).workspace.graph g) := by
      rcases hcases with hbuilt | ⟨hgiven, hcurrent, hkept⟩
      · rw [hbuilt]
        exact .refl _
      · rw [hkept]
        exact hgraph hwalk g hgiven hcurrent
    simp only [hvalue, Workspace.callees, hmodel, freshCallees, if_true]
    exact hannotates.functionCallees_eq htidy w.model f

/-- A query has the outcome that the program as it stands gives. -/
theorem query_value_eq_fresh (hgraph : a.GraphInStep w) (entry : Entry) :
    (a.query w entry).value =
      answer w.model a.program (freshScope w.model a.program a.usesGraph a.callbacks) entry := by
  rw [query_value, refresh_callees hgraph, freshScope]

/-- So has a query over direct calls alone. -/
theorem directlyReached_value_eq_fresh (hgraph : a.GraphInStep w) (entry : Entry) :
    (a.directlyReached w entry).value =
      (entry.resolve w.model a.program).map fun f =>
        walk w.model (freshCallees w.model a.program a.usesGraph) [] [f] := by
  unfold directlyReached
  cases entry.resolve w.model a.program with
  | error fault => rfl
  | ok f =>
    dsimp only
    rw [refresh_callees hgraph]
    rfl

end Analysis

/-! ## What a query follows -/

section Fresh

variable {m : Model} {p : ProgramId} {entry : Entry} {e : FunctionId}

/-- In a consistent program a query stays inside, whatever its functions are
called. -/
theorem Model.Coherent.follows_freshScope (hm : m.Coherent) (hrefs : m.checkRefs p = .ok ())
    (usesGraph callbacks : Bool) : Closure.Follows m p (freshScope m p usesGraph callbacks) := by
  refine ⟨fun f hf g hg => ?_, TypeIndex.exact_ofProgram hm⟩
  simp only [freshScope, freshCallees] at hg
  split at hg
  · exact hm.mem_members_of_mentions hrefs (CallGraph.mentions_of_mem_functionCallees hg)
  · exact hm.staticCallees_within hrefs f hf hg

/-- A fresh graph shows the calls that a scan finds, unless a function has the
id of the node for unknown targets as its name. -/
theorem Model.Coherent.freshScope_sameCalls (hm : m.Coherent) (hrefs : m.checkRefs p = .ok ())
    (hunknown : m.find? p CallGraph.unknownId = none) (usesGraph callbacks : Bool) :
    Closure.SameCalls m p (scanScope m p callbacks) (freshScope m p usesGraph callbacks) := by
  refine ⟨rfl, rfl, fun f hf hdefined => ?_⟩
  cases usesGraph with
  | false => rfl
  | true =>
    exact (CallGraph.mirrors_build hm hrefs hunknown).functionCallees_eq hm hrefs hf hdefined

/-- A name is an entry when a defined function has it. -/
theorem Entry.resolve_named_eq_ok_iff {name : Text.Wide} :
    (Entry.named name).resolve m p = .ok e ↔
      m.findWide? p name = some e ∧ m.isDeclaration e = false := by
  cases hfind : m.findWide? p name with
  | none => simp [resolve, hfind, bind, Except.bind]
  | some f =>
    simp only [resolve, hfind, bind, Except.bind, Option.some.injEq]
    split
    · rename_i hdeclared
      simp only [reduceCtorEq, false_iff, not_and]
      rintro rfl
      simp [hdeclared]
    · rename_i hdefined
      simp only [Except.ok.injEq]
      exact ⟨fun heq => ⟨heq, by simpa [heq] using hdefined⟩, fun h => h.1⟩

/-- The function that an entry stands for is a defined function of the
program. -/
theorem Model.Coherent.mem_defined_of_resolve (hm : m.Coherent)
    (h : entry.resolve m p = .ok e) : e ∈ m.defined p := by
  refine Model.mem_defined_iff.2 ⟨mem_members_of_resolve hm h, ?_⟩
  cases entry with
  | named name => exact (Entry.resolve_named_eq_ok_iff.1 h).2
  | function f =>
    cases howns : m.owns p f with
    | false => simp [Entry.resolve, howns, bind, Except.bind] at h
    | true =>
      simp only [Entry.resolve, howns, if_true, bind, Except.bind] at h
      split at h
      · cases h
      · rename_i hdefined
        cases h
        simpa using hdefined

end Fresh

end CallReach
