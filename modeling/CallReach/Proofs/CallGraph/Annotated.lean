import CallReach.Proofs.CallGraph.Reach
import CallReach.Proofs.Reachability.Refresh

/-!
# The annotated graph and the query

A query closes a set of functions under calls and candidates and stops at a
malformed call site.  The annotated call graph has an edge for each call and for
each candidate of a well-formed site, and a search over its edges never stops.
The two find the same functions.

* The edges.  `annotate_eq` lists the edges that annotating adds, site by site.
* The steps.  `nodeAt_mem_callees_of_leads` turns a step of the closure into an
  edge, and `callees_cases` turns an edge into a step of the closure or shows
  that it ends at a node without calls.
* The paths.  `reaches_iff` carries both along a path, and `query_eq_annotated`
  reads it for a query that succeeds.
-/

namespace CallReach.CallGraph

variable {g : CallGraph} {m : Model} {p : ProgramId} {index : TypeIndex} {f h e : FunctionId}
  {v : NodeId}

/-! ## The edges that annotating adds -/

/-- The edges from a node to functions, in the order of their names. -/
def targetEdges (m : Model) (g : CallGraph) (caller : NodeId) (site : SiteId)
    (resolution : Resolution) (targets : FunctionSet) : List Edge :=
  (m.sorted targets).map fun f => ⟨caller, g.nodeAt m f, some site, resolution⟩

/-- The edges that resolution finds for a call site, none for a malformed one. -/
def resolvedEdges (m : Model) (index : TypeIndex) (g : CallGraph) (f : FunctionId)
    (entry : SiteId × CallSite) : List Edge :=
  match entry.2.fault? with
  | some _ => []
  | none =>
      (if entry.2.isIndirect && (entry.2.pointerTargets index).isEmpty then
          [⟨g.nodeAt m f, unknown, some entry.1, .unresolved⟩]
        else []) ++
      targetEdges m g (g.nodeAt m f) entry.1 .functionPointer (entry.2.pointerTargets index) ++
      targetEdges m g (g.nodeAt m f) entry.1 .callback (entry.2.passedTargets m index)

theorem connectAll_eq {caller : NodeId} {site : SiteId} {resolution : Resolution}
    {targets : FunctionSet}
    (htargets : ∀ f ∈ targets, g.nodeOf? m f = some (g.nodeAt m f)) :
    connectAll m caller site resolution targets g =
      g.withEdges (targetEdges m g caller site resolution targets) := by
  have hfold : ∀ (rest : List FunctionId) (edges : List Edge), (∀ f ∈ rest, f ∈ targets) →
      rest.foldl (fun g f => ((g.ensureNode m f).1.connect
        ⟨caller, (g.ensureNode m f).2, some site, resolution⟩)) (g.withEdges edges) =
        g.withEdges (edges ++ rest.map fun f => ⟨caller, g.nodeAt m f, some site, resolution⟩) := by
    intro rest
    induction rest with
    | nil =>
      intro edges _
      simp
    | cons f rest ih =>
      intro edges hrest
      have hfind : (g.withEdges edges).find? (m.name f) = some (g.nodeAt m f) :=
        (nodeOf?_eq_some_iff.1 (htargets f (hrest f List.mem_cons_self))).1
      have hstep : (g.withEdges edges).connect ⟨caller, g.nodeAt m f, some site, resolution⟩ =
          g.withEdges (edges ++ [⟨caller, g.nodeAt m f, some site, resolution⟩]) := by
        simp [connect, withEdges]
      rw [List.foldl_cons, ensureNode_of_find? hfind, hstep,
        ih _ fun f hf => hrest f (List.mem_cons_of_mem _ hf)]
      simp
  have hstart := hfold (m.sorted targets) [] fun f hf => Model.mem_sorted.1 hf
  rwa [withEdges_nil, List.nil_append] at hstart

/-- A well-formed call site adds its edges when its candidates have nodes. -/
theorem annotateSite_eq {id : SiteId} {site : CallSite} (hfault : site.fault? = none)
    (hpointer : ∀ f ∈ site.pointerTargets index, g.nodeOf? m f = some (g.nodeAt m f))
    (hpassed : ∀ f ∈ site.passedTargets m index, g.nodeOf? m f = some (g.nodeAt m f)) :
    annotateSite m index (g.nodeAt m f) id site g =
      g.withEdges (resolvedEdges m index g f (id, site)) := by
  have hunresolved : (if site.isIndirect && (site.pointerTargets index).isEmpty then
      g.connect ⟨g.nodeAt m f, unknown, some id, .unresolved⟩ else g) =
      g.withEdges (if site.isIndirect && (site.pointerTargets index).isEmpty then
        [⟨g.nodeAt m f, unknown, some id, .unresolved⟩] else []) := by
    split
    · simp [connect, withEdges]
    · rw [withEdges_nil]
  -- More edges change no node, so the targets have the same nodes throughout.
  rw [annotateSite, hunresolved, connectAll_eq (g := g.withEdges _) hpointer,
    withEdges_withEdges, connectAll_eq (g := g.withEdges _) hpassed, withEdges_withEdges,
    resolvedEdges, hfault]
  rfl

/-- A list of call sites adds the edges of each, when their functions and their
candidates have nodes.  No caller is missing. -/
theorem annotateSites_eq {sites : List (SiteId × CallSite)}
    (hcaller : ∀ entry ∈ sites,
      g.nodeOf? m entry.1.block.function = some (g.nodeAt m entry.1.block.function))
    (hpointer : ∀ entry ∈ sites, ∀ f ∈ entry.2.pointerTargets index,
      g.nodeOf? m f = some (g.nodeAt m f))
    (hpassed : ∀ entry ∈ sites, ∀ f ∈ entry.2.passedTargets m index,
      g.nodeOf? m f = some (g.nodeAt m f)) (edges : List Edge) :
    (annotateSites m index (g.withEdges edges) sites).graph =
        g.withEdges (edges ++ sites.flatMap fun entry =>
          resolvedEdges m index g entry.1.block.function entry) ∧
      (annotateSites m index (g.withEdges edges) sites).missing = none := by
  induction sites generalizing edges with
  | nil => simp [annotateSites]
  | cons entry rest ih =>
    obtain ⟨id, site⟩ := entry
    have hrest := ih (fun entry hentry => hcaller entry (List.mem_cons_of_mem _ hentry))
      (fun entry hentry => hpointer entry (List.mem_cons_of_mem _ hentry))
      (fun entry hentry => hpassed entry (List.mem_cons_of_mem _ hentry))
    cases hfault : site.fault? with
    | some fault =>
      have hnone : resolvedEdges m index g id.block.function (id, site) = [] := by
        rw [resolvedEdges, hfault]
      simpa [annotateSites, hfault, hnone] using hrest edges
    | none =>
      have hfind : (g.withEdges edges).find? (m.name id.block.function) =
          some (g.nodeAt m id.block.function) :=
        (nodeOf?_eq_some_iff.1 (hcaller (id, site) List.mem_cons_self)).1
      have hsite : annotateSite m index (g.nodeAt m id.block.function) id site
          (g.withEdges edges) = (g.withEdges edges).withEdges
            (resolvedEdges m index g id.block.function (id, site)) :=
        annotateSite_eq (g := g.withEdges edges) hfault
          (hpointer (id, site) List.mem_cons_self) (hpassed (id, site) List.mem_cons_self)
      rw [annotateSites, hfault]
      simp only [hfind, hsite, withEdges_withEdges]
      simpa using hrest (edges ++ resolvedEdges m index g id.block.function (id, site))

/-- The call sites of a function are told by their ids. -/
theorem function_of_mem_sites {entry : SiteId × CallSite} (hentry : entry ∈ m.sites f) :
    entry.1.block.function = f :=
  (Model.mem_sites_iff.1 hentry).1

/-- The annotated graph of a consistent program is its graph with the edges of
the well-formed call sites of its functions. -/
theorem annotate_eq (hm : m.Coherent) (hrefs : m.checkRefs p = .ok ())
    (hindex : index.Exact m p) (hg : Mirrors m p g) :
    (annotate m index g).graph = g.withEdges ((m.defined p).flatMap fun f =>
        (m.sites f).flatMap (resolvedEdges m index g f)) ∧
      (annotate m index g).missing = none := by
  have hsites : ∀ entry ∈ (m.defined p).flatMap m.sites,
      ∃ f ∈ m.members p, entry ∈ m.sites f ∧ entry.1.block.function = f := by
    intro entry hentry
    obtain ⟨f, hf, hmem⟩ := List.mem_flatMap.1 hentry
    exact ⟨f, (Model.mem_defined_iff.1 hf).1, hmem, function_of_mem_sites hmem⟩
  have hcaller : ∀ entry ∈ (m.defined p).flatMap m.sites,
      g.nodeOf? m entry.1.block.function = some (g.nodeAt m entry.1.block.function) := by
    intro entry hentry
    obtain ⟨f, hf, -, heq⟩ := hsites entry hentry
    rw [heq]
    exact hg.seated f hf
  have hpointer : ∀ entry ∈ (m.defined p).flatMap m.sites,
      ∀ f ∈ entry.2.pointerTargets index, g.nodeOf? m f = some (g.nodeAt m f) := by
    intro entry _ f hf
    have hmay := (CallSite.mem_pointerTargets_iff hindex).1 hf
    exact hg.seated f (Model.mem_defined_iff.1 hmay.2.2).1
  have hpassed : ∀ entry ∈ (m.defined p).flatMap m.sites,
      ∀ f ∈ entry.2.passedTargets m index, g.nodeOf? m f = some (g.nodeAt m f) := by
    intro entry hentry f hf
    obtain ⟨caller, hmember, hmem, -⟩ := hsites entry hentry
    have hmay := (CallSite.mem_passedTargets_iff hm hindex fun k hk =>
      hm.mem_members_of_argument hrefs hmember hmem hk).1 hf
    exact hg.seated f (Model.mem_defined_iff.1
      (hm.mem_defined_of_mayPass hrefs hmember hmem hmay)).1
  obtain ⟨hgraph, hmissing⟩ := annotateSites_eq hcaller hpointer hpassed []
  rw [withEdges_nil, List.nil_append, List.flatMap_assoc] at hgraph
  rw [withEdges_nil] at hmissing
  rw [annotate, hg.program]
  refine ⟨hgraph.trans ?_, hmissing⟩
  congr 1
  refine List.flatMap_congr fun f _ => List.flatMap_congr fun entry hentry => ?_
  rw [function_of_mem_sites hentry]

theorem mem_targetEdges_iff {caller : NodeId} {site : SiteId} {resolution : Resolution}
    {targets : FunctionSet} {edge : Edge} :
    edge ∈ targetEdges m g caller site resolution targets ↔
      ∃ f ∈ targets, edge = ⟨caller, g.nodeAt m f, some site, resolution⟩ := by
  simp [targetEdges, eq_comm]

theorem mem_resolvedEdges_iff {entry : SiteId × CallSite} {edge : Edge} :
    edge ∈ resolvedEdges m index g f entry ↔ entry.2.fault? = none ∧
      ((entry.2.isIndirect && (entry.2.pointerTargets index).isEmpty) = true ∧
          edge = ⟨g.nodeAt m f, unknown, some entry.1, .unresolved⟩ ∨
        (∃ h ∈ entry.2.pointerTargets index,
          edge = ⟨g.nodeAt m f, g.nodeAt m h, some entry.1, .functionPointer⟩) ∨
        ∃ h ∈ entry.2.passedTargets m index,
          edge = ⟨g.nodeAt m f, g.nodeAt m h, some entry.1, .callback⟩) := by
  unfold resolvedEdges
  cases entry.2.fault? with
  | some fault => simp
  | none =>
    rw [List.mem_append, List.mem_append, mem_targetEdges_iff, mem_targetEdges_iff, or_assoc]
    split
    · rename_i hempty
      simp [hempty]
    · rename_i hsome
      simp [hsome]

theorem tidy_buildAnnotated (m : Model) (p : ProgramId) : (buildAnnotated m p).graph.Tidy :=
  (annotates_annotate (tidy_build m p) m (TypeIndex.ofProgram m p)).tidy (tidy_build m p)

/-! ## Edges and steps -/

/-- A program whose annotated graph shows what a query follows: it is
consistent, and no function has the id of the node for unknown targets. -/
structure Annotatable (m : Model) (p : ProgramId) : Prop where
  coherent : m.Coherent
  refs : m.checkRefs p = .ok ()
  noUnknown : m.find? p unknownId = none

namespace Annotatable

theorem mirrors (hp : Annotatable m p) : Mirrors m p (build m p) :=
  mirrors_build hp.coherent hp.refs hp.noUnknown

theorem annotate_eq (hp : Annotatable m p) :
    (buildAnnotated m p).graph = (build m p).withEdges ((m.defined p).flatMap fun f =>
        (m.sites f).flatMap (resolvedEdges m (TypeIndex.ofProgram m p) (build m p) f)) ∧
      (buildAnnotated m p).missing = none :=
  CallGraph.annotate_eq hp.coherent hp.refs (TypeIndex.exact_ofProgram hp.coherent) hp.mirrors

/-- Every function keeps its node. -/
theorem nodeOf?_eq (hp : Annotatable m p) (hf : f ∈ m.members p) :
    (buildAnnotated m p).graph.nodeOf? m f = some ((build m p).nodeAt m f) := by
  rw [hp.annotate_eq.1]
  exact hp.mirrors.seated f hf

theorem node_nodeAt (hp : Annotatable m p) (hf : f ∈ m.members p) :
    ((buildAnnotated m p).graph.node ((build m p).nodeAt m f)).function = some f ∧
      ((buildAnnotated m p).graph.node ((build m p).nodeAt m f)).kind = roleOf m (some f) := by
  have hfunction : ((build m p).node ((build m p).nodeAt m f)).function = some f :=
    (nodeOf?_eq_some_iff.1 (hp.mirrors.seated f hf)).2
  rw [hp.annotate_eq.1]
  refine ⟨hfunction, ?_⟩
  rw [← hfunction]
  exact (plain_build m p).kind _

theorem kind_unknown (hp : Annotatable m p) :
    ((buildAnnotated m p).graph.node unknown).kind = .unknown := by
  rw [hp.annotate_eq.1]
  have hnode := (plain_build m p).grows.node unknown (by simp [start, unknown])
  exact (congrArg Node.kind hnode).trans (node_start _).1

/-- The edges of the annotated graph, by the call sites that they come from. -/
theorem mem_edges_iff (hp : Annotatable m p) {edge : Edge} :
    edge ∈ (buildAnnotated m p).graph.edges.toList ↔
      ∃ f ∈ m.defined p, ∃ entry ∈ m.sites f, callEdge? m (build m p) f entry = some edge ∨
        edge ∈ resolvedEdges m (TypeIndex.ofProgram m p) (build m p) f entry := by
  have hbuilt : (build m p).edges.toList = (m.defined p).flatMap (callEdges m (build m p)) := by
    rw [← hp.mirrors.direct, directEdges, List.filter_eq_self.2]
    intro edge hedge
    simpa using (plain_build m p).direct edge hedge
  rw [hp.annotate_eq.1, withEdges, Array.toList_append, hbuilt]
  simp only [List.mem_append, List.mem_flatMap, callEdges, List.mem_filterMap]
  constructor
  · rintro (⟨f, hf, entry, hentry, hedge⟩ | ⟨f, hf, entry, hentry, hedge⟩)
    · exact ⟨f, hf, entry, hentry, .inl hedge⟩
    · exact ⟨f, hf, entry, hentry, .inr hedge⟩
  · rintro ⟨f, hf, entry, hentry, hedge | hedge⟩
    · exact .inl ⟨f, hf, entry, hentry, hedge⟩
    · exact .inr ⟨f, hf, entry, hentry, hedge⟩

/-- Where a function leads to, its node has an edge to. -/
theorem nodeAt_mem_callees_of_leads (hp : Annotatable m p) (hf : f ∈ m.defined p)
    (hleads : m.Leads p true CallSite.WellFormed f h) :
    (build m p).nodeAt m h ∈ (buildAnnotated m p).graph.callees ((build m p).nodeAt m f) := by
  have hindex : (TypeIndex.ofProgram m p).Exact m p := TypeIndex.exact_ofProgram hp.coherent
  have hmember := (Model.mem_defined_iff.1 hf).1
  rw [mem_callees_iff]
  cases hleads with
  | call hcalls =>
    obtain ⟨entry, hentry, hcallee, -⟩ := hcalls
    have hedge : callEdge? m (build m p) f entry =
        some ⟨(build m p).nodeAt m f, (build m p).nodeAt m h, some entry.1, .direct⟩ := by
      rw [callEdge?, hcallee]
    exact ⟨_, hp.mem_edges_iff.2 ⟨f, hf, entry, hentry, .inl hedge⟩, rfl, rfl⟩
  | @pointer entry hentry hheeded hmay =>
    have htarget := (CallSite.mem_pointerTargets_iff hindex).2 hmay
    exact ⟨⟨_, _, some entry.1, .functionPointer⟩, hp.mem_edges_iff.2 ⟨f, hf, entry, hentry,
      .inr (mem_resolvedEdges_iff.2 ⟨hheeded, .inr (.inl ⟨h, htarget, rfl⟩)⟩)⟩, rfl, rfl⟩
  | @pass entry _ hentry hheeded hmay =>
    have htarget := (CallSite.mem_passedTargets_iff hp.coherent hindex fun k hk =>
      hp.coherent.mem_members_of_argument hp.refs hmember hentry hk).2 hmay
    exact ⟨⟨_, _, some entry.1, .callback⟩, hp.mem_edges_iff.2 ⟨f, hf, entry, hentry,
      .inr (mem_resolvedEdges_iff.2 ⟨hheeded, .inr (.inr ⟨h, htarget, rfl⟩)⟩)⟩, rfl, rfl⟩

/-- An edge starts at the node of a defined function.  It ends where that
function leads to, or at a node of another kind. -/
theorem callees_cases (hp : Annotatable m p) {u : NodeId}
    (hedge : v ∈ (buildAnnotated m p).graph.callees u) :
    ∃ f ∈ m.defined p, u = (build m p).nodeAt m f ∧
      ((∃ h, m.Leads p true CallSite.WellFormed f h ∧ v = (build m p).nodeAt m h) ∨
        ((buildAnnotated m p).graph.node v).kind ≠ .function) := by
  have hindex : (TypeIndex.ofProgram m p).Exact m p := TypeIndex.exact_ofProgram hp.coherent
  obtain ⟨edge, hmem, rfl, rfl⟩ := mem_callees_iff.1 hedge
  obtain ⟨f, hf, entry, hentry, hcall | hresolved⟩ := hp.mem_edges_iff.1 hmem
  · have hmember := (Model.mem_defined_iff.1 hf).1
    refine ⟨f, hf, callEdge?_caller hcall, ?_⟩
    cases hcallee : entry.2.callee with
    | function callee =>
      rw [callEdge?, hcallee] at hcall
      obtain rfl := Option.some.inj hcall
      cases hdeclared : m.isDeclaration callee with
      | false => exact .inl ⟨callee, .call ⟨entry, hentry, hcallee, hdeclared⟩, rfl⟩
      | true =>
        -- A declaration has a node of its own kind.
        have hinside := hp.coherent.mem_members_of_callee hp.refs hmember hentry hcallee
        refine .inr ?_
        rw [(hp.node_nodeAt hinside).2, roleOf, hdeclared]
        decide
    | absent => simp [callEdge?, hcallee] at hcall
    | other value => simp [callEdge?, hcallee] at hcall
  · have hmember := (Model.mem_defined_iff.1 hf).1
    obtain ⟨hfault, ⟨-, rfl⟩ | ⟨h, hh, rfl⟩ | ⟨h, hh, rfl⟩⟩ := mem_resolvedEdges_iff.1 hresolved
    · refine ⟨f, hf, rfl, .inr ?_⟩
      rw [hp.kind_unknown]
      decide
    · have hmay := (CallSite.mem_pointerTargets_iff hindex).1 hh
      exact ⟨f, hf, rfl, .inl ⟨h, .pointer hentry hfault hmay, rfl⟩⟩
    · have hmay := (CallSite.mem_passedTargets_iff hp.coherent hindex fun k hk =>
        hp.coherent.mem_members_of_argument hp.refs hmember hentry hk).1 hh
      exact ⟨f, hf, rfl, .inl ⟨h, .pass rfl hentry hfault hmay, rfl⟩⟩

/-! ## Paths -/

/-- A path in the annotated graph ends at the node of a function that the start
leads to, or at a node of another kind. -/
theorem reach_of_reaches (hp : Annotatable m p) (he : e ∈ m.defined p)
    (hpath : (buildAnnotated m p).graph.Reaches ((build m p).nodeAt m e) v) :
    (∃ f ∈ reach m p true e, v = (build m p).nodeAt m f) ∨
      ((buildAnnotated m p).graph.node v).kind ≠ .function := by
  induction hpath with
  | refl => exact .inl ⟨e, .refl, rfl⟩
  | @tail u v _ hedge ih =>
    obtain ⟨f, hf, rfl, hend⟩ := hp.callees_cases hedge
    obtain ⟨hmember, hdefined⟩ := Model.mem_defined_iff.1 hf
    rcases hend with ⟨h, hleads, rfl⟩ | hother
    · rcases ih with ⟨k, hk, heq⟩ | hkind
      · -- Distinct functions have distinct nodes, so the edge starts where the path got to.
        have hkmember := (Model.mem_defined_iff.1
          (reach_subset_defined hp.coherent hp.refs he k hk)).1
        obtain rfl := hp.mirrors.eq_of_nodeAt_eq hmember hkmember heq
        exact .inl ⟨h, .tail hk hleads, rfl⟩
      · rw [(hp.node_nodeAt hmember).2, roleOf, hdefined] at hkind
        exact absurd rfl hkind
    · exact .inr hother

theorem reaches_of_reach (hp : Annotatable m p) (he : e ∈ m.defined p)
    (hf : f ∈ reach m p true e) :
    (buildAnnotated m p).graph.Reaches ((build m p).nodeAt m e) ((build m p).nodeAt m f) := by
  induction hf with
  | refl => exact .refl
  | @tail f h hpath hleads ih =>
    have hdefined := reach_subset_defined hp.coherent hp.refs he f hpath
    exact .tail ih (hp.nodeAt_mem_callees_of_leads hdefined hleads)

/-- The functions that a start leads to are the start and the functions of the
nodes that a search from its node finds. -/
theorem mem_reach_iff (hp : Annotatable m p) (he : e ∈ m.defined p) :
    f ∈ reach m p true e ↔ f = e ∨
      ∃ v ∈ (buildAnnotated m p).graph.reachedFrom ((build m p).nodeAt m e),
        ((buildAnnotated m p).graph.node v).kind = .function ∧
          ((buildAnnotated m p).graph.node v).function = some f := by
  have hmember := (Model.mem_defined_iff.1 he).1
  have htidy := tidy_buildAnnotated m p
  have hstart := (htidy.find?_eq_some_iff.1 (nodeOf?_eq_some_iff.1 (hp.nodeOf?_eq hmember)).1).1
  have hsearch {v : NodeId} := htidy.mem_reachedFrom_iff (v := v) hstart
  constructor
  · intro hf
    obtain ⟨hfmember, hdefined⟩ := Model.mem_defined_iff.1
      (reach_subset_defined hp.coherent hp.refs he f hf)
    by_cases heq : f = e
    · exact .inl heq
    · refine .inr ⟨_, hsearch.2 ⟨fun hnode => heq ?_, hp.reaches_of_reach he hf⟩, ?_,
        (hp.node_nodeAt hfmember).1⟩
      · exact hp.mirrors.eq_of_nodeAt_eq hfmember hmember hnode
      · rw [(hp.node_nodeAt hfmember).2, roleOf, hdefined]
        rfl
  · rintro (rfl | ⟨v, hv, hkind, hfunction⟩)
    · exact .refl
    · rcases hp.reach_of_reaches he (hsearch.1 hv).2 with ⟨k, hk, rfl⟩ | hother
      · have hkmember := (Model.mem_defined_iff.1
          (reach_subset_defined hp.coherent hp.refs he k hk)).1
        rw [(hp.node_nodeAt hkmember).1] at hfunction
        exact Option.some.inj hfunction ▸ hk
      · exact absurd hkind hother

end Annotatable

end CallReach.CallGraph

namespace CallReach.Analysis

/-- A query that counts callbacks and returns a result has found the entry and
the functions of those nodes of kind function that a search over all edges of
the annotated call graph finds from the node of the entry.  The query may scan
or walk, with a graph of its own, an outdated one or one at the present
revision, and functions that it does not find may have malformed call sites. -/
theorem query_eq_annotated {a : Analysis} {w : Workspace} {entry : Entry} {r : Result}
    (hmade : w.model.Made) (hvalid : w.model.checkRefs a.program = .ok ())
    (hunknown : w.model.find? a.program CallGraph.unknownId = none)
    (hcallbacks : a.callbacks = true)
    (hgraph : a.usesGraph = true → ∀ g ∈ a.graph, (w.graph g).isOutdated w.model = true ∨
      CallGraph.Current a.program w.model (w.graph g))
    (hr : (a.query w entry).value = .ok r) :
    let annotated := CallGraph.annotate w.model (TypeIndex.ofProgram w.model a.program)
      (CallGraph.build w.model a.program)
    annotated.missing = none ∧ entry.resolve w.model a.program = .ok r.entry ∧
      ∃ n, annotated.graph.nodeOf? w.model r.entry = some n ∧
        ∀ f, f ∈ r.reachable ↔ f = r.entry ∨ ∃ v ∈ annotated.graph.reachedFrom n,
          (annotated.graph.node v).kind = .function ∧
            (annotated.graph.node v).function = some f := by
  intro annotated
  have hm := hmade.coherent
  have hp : CallGraph.Annotatable w.model a.program := ⟨hm, hvalid, hunknown⟩
  rw [query_value_eq_fresh (graphInStep_of_current hvalid hgraph),
    answer_congr hm hvalid (hm.follows_scanScope hvalid a.callbacks)
      (hm.freshScope_sameCalls hvalid hunknown a.usesGraph a.callbacks)] at hr
  cases hresolve : entry.resolve w.model a.program with
  | error fault => simp [answer, hresolve] at hr
  | ok e =>
    have he := hm.mem_defined_of_resolve hresolve
    rcases answer_cases a.callbacks hm hvalid he hresolve with
      ⟨r', hr', rfl, -, hreachable, -⟩ | ⟨bad, found, hbad, -⟩
    · obtain rfl : r' = r := by simpa [hr'] using hr
      refine ⟨hp.annotate_eq.2, rfl, _, hp.nodeOf?_eq (Model.mem_defined_iff.1 he).1, fun f => ?_⟩
      rw [hreachable f, hcallbacks]
      exact hp.mem_reach_iff he
    · simp [hbad] at hr

/-- In the small program `main` leads to everything but `log` and `idle`, by the
query and by the annotated graph, though a call site of `idle` is malformed. -/
theorem query_eq_annotated_relay :
    let annotated := CallGraph.annotate Model.Relay.model
      (TypeIndex.ofProgram Model.Relay.model ⟨0⟩) (CallGraph.build Model.Relay.model ⟨0⟩)
    (∃ site ∈ Model.Relay.model.sites ⟨5⟩, site.2.fault? = some .missingSignature) ∧
      ∃ n, annotated.graph.nodeOf? Model.Relay.model ⟨0⟩ = some n ∧
        ∀ f, f ∈ ([⟨0⟩, ⟨1⟩, ⟨3⟩, ⟨4⟩] : List FunctionId) ↔
          f = ⟨0⟩ ∨ ∃ v ∈ annotated.graph.reachedFrom n,
            (annotated.graph.node v).kind = .function ∧
              (annotated.graph.node v).function = some f := by
  intro annotated
  have hr : ((⟨⟨0⟩, none, true, true⟩ : Analysis).query ⟨Model.Relay.model, #[]⟩
      (.named "main")).value =
        .ok ⟨⟨0⟩, ⟨0⟩, [⟨0⟩, ⟨1⟩, ⟨3⟩, ⟨4⟩], [⟨0⟩, ⟨1⟩], none⟩ := by
    rw [query_value]
    cbv
  refine ⟨by decide, ?_⟩
  exact (query_eq_annotated (a := ⟨⟨0⟩, none, true, true⟩) (w := ⟨Model.Relay.model, #[]⟩)
    Model.Relay.made rfl rfl rfl (by simp) hr).2.2

end CallReach.Analysis
