import CallReach.CallGraph.Statistics
import CallReach.Proofs.CallGraph.Annotated
import CallReach.Proofs.CallGraph.Faithful

/-!
# What the figures count

The figures of a call graph are counted on its nodes and edges.  `Counts` says
what the figures of an annotated graph are in terms of the program alone: its
functions, its call sites, and what the call sites may call and pass.

There are four groups.

* Sets without repetition.  An index group and the candidates of a call site
  name each function once, so their lengths are numbers of functions.
* Classes.  `components_classes` says that the components of a tidy graph are
  the classes of its nodes, and `countP_components` counts the large ones.
* The annotated graph.  `edgeCount_eq` counts its edges call site by call site,
  and `classOf_nodeAt` carries the classes from nodes to functions.
* The assembly.  `statistics_counts` puts the figures together.
-/

namespace CallReach

/-! ## Sets without repetition -/

/-- A group of an index names each function once. -/
theorem TypeIndex.nodup_lookup_build (m : Model) (functions : List FunctionId) (type : Ty) :
    ((build m functions).lookup type).Nodup := by
  have hfold : ∀ (rest : List FunctionId) (groups : List (Ty × FunctionSet)),
      ((TypeIndex.mk groups).lookup type).Nodup →
      ((TypeIndex.mk (rest.foldl (fun groups f => addToGroup m f groups) groups)).lookup
        type).Nodup := by
    intro rest
    induction rest with
    | nil => exact fun _ h => h
    | cons f rest ih =>
      intro groups hgroups
      refine ih _ ?_
      rw [lookup_addToGroup]
      split
      · exact Model.nodup_insert hgroups f
      · exact hgroups
  exact hfold _ [] (by simp [lookup])

theorem CallSite.nodup_passedTargets (m : Model) (index : TypeIndex) (site : CallSite) :
    (site.passedTargets m index).Nodup := by
  have hfold : ∀ (arguments : List Argument) (found : FunctionSet), found.Nodup →
      (arguments.foldl (fun found a => m.union found (a.candidates m index)) found).Nodup := by
    intro arguments
    induction arguments with
    | nil => exact fun _ h => h
    | cons a rest ih => exact fun found hfound => ih _ (Model.nodup_union hfound _)
  exact hfold _ [] .nil

theorem ncard_mem_eq_length {α : Type} {l : List α} (h : l.Nodup) :
    {a | a ∈ l}.ncard = l.length := by
  classical
  rw [← List.coe_toFinset, Set.ncard_coe_finset, List.toFinset_card_of_nodup h]

section Targets

variable {m : Model} {p : ProgramId} {f : FunctionId} {entry : SiteId × CallSite}

/-- The number of targets of an indirect call. -/
theorem CallSite.length_pointerTargets (hm : m.Coherent) (site : CallSite) :
    (site.pointerTargets (TypeIndex.ofProgram m p)).length = {g | site.MayCall m p g}.ncard := by
  have hnodup : (site.pointerTargets (TypeIndex.ofProgram m p)).Nodup := by
    unfold pointerTargets
    split
    · exact TypeIndex.nodup_lookup_build m _ _
    · exact .nil
  rw [← ncard_mem_eq_length hnodup]
  congr 1
  ext g
  exact mem_pointerTargets_iff (TypeIndex.exact_ofProgram hm)

/-- The number of functions that a call may pass. -/
theorem Model.Coherent.length_passedTargets (hm : m.Coherent) (hrefs : m.checkRefs p = .ok ())
    (hf : f ∈ m.members p) (hentry : entry ∈ m.sites f) :
    (entry.2.passedTargets m (TypeIndex.ofProgram m p)).length =
      {g | entry.2.MayPass m p g}.ncard := by
  rw [← ncard_mem_eq_length (CallSite.nodup_passedTargets m _ entry.2)]
  congr 1
  ext g
  exact CallSite.mem_passedTargets_iff hm (TypeIndex.exact_ofProgram hm) fun k hk =>
    hm.mem_members_of_argument hrefs hf hentry hk

end Targets

/-- The call sites of a program that have no fault. -/
def Model.acceptedSites (m : Model) (p : ProgramId) : List (SiteId × CallSite) :=
  (m.programSites p).filter fun entry => entry.2.fault? = none

/-- The functions that a function leads to and that lead back to it. -/
def Model.peers (m : Model) (p : ProgramId) (f : FunctionId) : Set FunctionId :=
  {g | g ∈ reach m p true f ∧ f ∈ reach m p true g}

namespace CallGraph

variable {g : CallGraph} {m : Model} {p : ProgramId} {index : TypeIndex} {f h : FunctionId}
  {v w : NodeId} {resolution : Resolution}

/-! ## Classes -/

/-- The nodes that a node reaches and that reach it. -/
def classOf (g : CallGraph) (n : NodeId) : Set NodeId :=
  {w | g.Reaches n w ∧ g.Reaches w n}

/-- In a partition a member tells its part. -/
theorem eq_of_mem_of_mem {α : Type} {parts : List (List α)} (hnodup : parts.flatten.Nodup)
    {c d : List α} (hc : c ∈ parts) (hd : d ∈ parts) {a : α} (hac : a ∈ c) (had : a ∈ d) :
    c = d := by
  have hsymm : Std.Symm (List.Disjoint (α := α)) := ⟨fun _ _ => List.Disjoint.symm⟩
  by_contra hne
  exact (List.nodup_flatten.1 hnodup).2.forall hc hd hne hac had

/-- The components are the classes of the nodes. -/
theorem Tidy.components_classes (hg : g.Tidy) :
    g.components.flatten.Nodup ∧
      (∀ c ∈ g.components, ∃ n ∈ g.members, n ∈ c ∧ {w | w ∈ c} = g.classOf n) ∧
      ∀ n ∈ g.members, ∃ c ∈ g.components, {w | w ∈ c} = g.classOf n := by
  obtain ⟨hlayered, hreverse, hmem⟩ := hg.layered_components
  have hperm : g.components.reverse.flatten.Perm g.components.flatten :=
    (List.reverse_perm g.components).flatten
  have hnodup : g.components.flatten.Nodup := hperm.nodup_iff.1 hreverse
  have hmember (n : NodeId) : n ∈ g.components.flatten ↔ n ∈ g.members :=
    hperm.mem_iff.symm.trans (hmem n)
  have hclass : ∀ c ∈ g.components, ∀ n ∈ c, {w | w ∈ c} = g.classOf n := by
    intro c hc n hn
    have hconnected := (hlayered.reaches_of_mem c (List.mem_reverse.2 hc)).2
    have hflat : n ∈ g.components.reverse.flatten :=
      hperm.mem_iff.2 (List.mem_flatten.2 ⟨c, hc, hn⟩)
    ext w
    constructor
    · intro hw
      exact ⟨hconnected n hn w hw, hconnected w hw n hn⟩
    · rintro ⟨hforth, hback⟩
      obtain ⟨d, hd, hnd, hwd⟩ := hlayered.exists_mem_of_reaches hreverse hflat hforth hback
      rw [eq_of_mem_of_mem hnodup hc (List.mem_reverse.1 hd) hn hnd]
      exact hwd
  refine ⟨hnodup, fun c hc => ?_, fun n hn => ?_⟩
  · obtain ⟨n, hn⟩ :=
      List.exists_mem_of_ne_nil c (hlayered.reaches_of_mem c (List.mem_reverse.2 hc)).1
    exact ⟨n, (hmember n).1 (List.mem_flatten.2 ⟨c, hc, hn⟩), hn, hclass c hc n hn⟩
  · obtain ⟨c, hc, hnc⟩ := List.mem_flatten.1 ((hmember n).2 hn)
    exact ⟨c, hc, hclass c hc n hnc⟩

/-- The components with at least two nodes are counted by the classes with at
least two nodes. -/
theorem Tidy.countP_components (hg : g.Tidy) :
    (g.components.countP fun component => 1 < component.length) =
      {C : Set NodeId | C.Nontrivial ∧ ∃ n ∈ g.members, C = g.classOf n}.ncard := by
  obtain ⟨hnodup, hclass, hcover⟩ := hg.components_classes
  obtain ⟨hparts, hdisjoint⟩ := List.nodup_flatten.1 hnodup
  have hlarge : ∀ c ∈ g.components, {w | w ∈ c}.Nontrivial ↔ 1 < c.length := by
    intro c hc
    have hfinite : Finite {w | w ∈ c} := List.finite_toSet c
    rw [← Set.one_lt_ncard_iff_nontrivial, ncard_mem_eq_length (hparts c hc)]
  have hinjective : Set.InjOn (fun c : List NodeId => {w | w ∈ c}) {c | c ∈ g.components} := by
    intro c hc d hd heq
    obtain ⟨n, -, hn, -⟩ := hclass c hc
    have hnd : n ∈ {w | w ∈ d} := (Set.ext_iff.1 heq n).1 hn
    exact eq_of_mem_of_mem hnodup hc hd hn hnd
  have himage : {C : Set NodeId | C.Nontrivial ∧ ∃ n ∈ g.members, C = g.classOf n} =
      (fun c : List NodeId => {w | w ∈ c}) ''
        {c | c ∈ g.components.filter fun component => 1 < component.length} := by
    ext C
    constructor
    · rintro ⟨hC, n, hn, rfl⟩
      obtain ⟨c, hc, heq⟩ := hcover n hn
      rw [← heq] at hC ⊢
      exact ⟨c, by simpa [hc] using (hlarge c hc).1 hC, rfl⟩
    · rintro ⟨c, hc, rfl⟩
      obtain ⟨hmem, hlength⟩ := List.mem_filter.1 hc
      obtain ⟨n, hn, -, heq⟩ := hclass c hmem
      exact ⟨(hlarge c hmem).2 (by simpa using hlength), n, hn, heq⟩
  have hlists : g.components.Nodup := by
    refine hdisjoint.imp_of_mem fun {c d} hc _ hapart heq => ?_
    obtain ⟨n, -, hn, -⟩ := hclass c hc
    exact hapart hn (heq ▸ hn)
  have hfiltered : Set.InjOn (fun c : List NodeId => {w | w ∈ c})
      {c | c ∈ g.components.filter fun component => 1 < component.length} :=
    hinjective.mono fun c hc => List.mem_of_mem_filter hc
  rw [himage, hfiltered.ncard_image, ncard_mem_eq_length (hlists.filter _),
    List.countP_eq_length_filter]

/-! ## The edges of the annotated graph -/

/-- The number of edges with a resolution that a well-formed call site adds. -/
def resolvedCount (m : Model) (index : TypeIndex) (site : CallSite) : Resolution → Nat
  | .direct => 0
  | .functionPointer => (site.pointerTargets index).length
  | .callback => (site.passedTargets m index).length
  | .unresolved => if site.isIndirect && (site.pointerTargets index).isEmpty then 1 else 0

theorem countP_targetEdges {caller : NodeId} {site : SiteId} {kind : Resolution}
    {targets : FunctionSet} :
    (targetEdges m g caller site kind targets).countP (·.resolution = resolution) =
      if kind = resolution then targets.length else 0 := by
  split
  · rename_i heq
    have hlength : (targetEdges m g caller site kind targets).length = targets.length := by
      rw [targetEdges, List.length_map, (Model.sorted_perm targets).length_eq]
    rw [← hlength, List.countP_eq_length]
    intro edge hedge
    obtain ⟨f, -, rfl⟩ := mem_targetEdges_iff.1 hedge
    exact decide_eq_true heq
  · rename_i hne
    rw [List.countP_eq_zero]
    intro edge hedge
    obtain ⟨f, -, rfl⟩ := mem_targetEdges_iff.1 hedge
    simp [hne]

theorem countP_resolvedEdges {entry : SiteId × CallSite} (hfault : entry.2.fault? = none) :
    (resolvedEdges m index g f entry).countP (·.resolution = resolution) =
      resolvedCount m index entry.2 resolution := by
  rw [resolvedEdges, hfault, List.countP_append, List.countP_append, countP_targetEdges,
    countP_targetEdges]
  cases resolution <;> simp only [resolvedCount] <;> split <;> simp

/-- Every edge has one of the four resolutions. -/
theorem size_edges (g : CallGraph) :
    g.edges.size = g.edgeCount .direct + g.edgeCount .functionPointer + g.edgeCount .callback +
      g.edgeCount .unresolved := by
  simp only [edgeCount, ← Array.length_toList]
  induction g.edges.toList with
  | nil => rfl
  | cons edge rest ih =>
    simp only [List.length_cons, List.countP_cons, ih]
    cases edge.resolution <;> simp <;> omega

namespace Annotatable

theorem depicts (hp : Annotatable m p) : Depicts m p (m.members p) (build m p) :=
  depicts_build_of_find?_eq_none hp.coherent hp.refs hp.noUnknown

/-- The edges of the annotated graph: those of the static callees, and those
that resolution finds for the sites without a fault. -/
theorem edges_eq (hp : Annotatable m p) :
    (buildAnnotated m p).graph.edges.toList =
      (m.programSites p).filterMap (fun entry =>
          callEdge? m (build m p) entry.1.block.function entry) ++
        (m.acceptedSites p).flatMap fun entry =>
          resolvedEdges m (TypeIndex.ofProgram m p) (build m p) entry.1.block.function entry := by
  have hresolved : (m.acceptedSites p).flatMap (fun entry =>
      resolvedEdges m (TypeIndex.ofProgram m p) (build m p) entry.1.block.function entry) =
      (m.programSites p).flatMap fun entry =>
        resolvedEdges m (TypeIndex.ofProgram m p) (build m p) entry.1.block.function entry := by
    rw [Model.acceptedSites]
    induction m.programSites p with
    | nil => rfl
    | cons entry rest ih =>
      rw [List.filter_cons, List.flatMap_cons, ← ih]
      split
      · rw [List.flatMap_cons]
      · rename_i hfault
        cases hsome : entry.2.fault? with
        | none => simp [hsome] at hfault
        | some fault => simp [resolvedEdges, hsome]
  have hdefined : (m.defined p).flatMap (fun f => (m.sites f).flatMap
      (resolvedEdges m (TypeIndex.ofProgram m p) (build m p) f)) =
      (m.members p).flatMap fun f => (m.sites f).flatMap
        (resolvedEdges m (TypeIndex.ofProgram m p) (build m p) f) := by
    refine Model.flatMap_defined fun f hf => ?_
    rw [Model.sites_of_isDeclaration hf, List.flatMap_nil]
  rw [hresolved, hp.annotate_eq.1, withEdges, Array.toList_append, hp.depicts.edges, hdefined,
    Model.programSites, List.filterMap_flatMap, List.flatMap_assoc]
  -- The function of a call site is part of its id.
  congr 1
  · refine List.flatMap_congr fun f _ => List.filterMap_congr fun entry hentry => ?_
    rw [function_of_mem_sites hentry]
  · refine List.flatMap_congr fun f _ => List.flatMap_congr fun entry hentry => ?_
    rw [function_of_mem_sites hentry]

theorem edgeCount_eq (hp : Annotatable m p) (resolution : Resolution) :
    (buildAnnotated m p).graph.edgeCount resolution =
      (if resolution = .direct then
        (m.programSites p).countP fun entry => entry.2.callee matches .function _ else 0) +
      ((m.acceptedSites p).map fun entry =>
        resolvedCount m (TypeIndex.ofProgram m p) entry.2 resolution).sum := by
  rw [edgeCount, hp.edges_eq, List.countP_append, List.countP_filterMap, List.countP_flatMap]
  congr 1
  · split
    · rename_i hdirect
      refine List.countP_congr fun entry _ => ?_
      cases hcallee : entry.2.callee <;> simp [callEdge?, hcallee, hdirect]
    · rename_i hother
      refine List.countP_eq_zero.2 fun entry _ => ?_
      cases hcallee : entry.2.callee <;> simp [callEdge?, hcallee, Ne.symm hother]
  · congr 1
    refine List.map_congr_left fun entry hentry => ?_
    exact countP_resolvedEdges (by simpa using (List.mem_filter.1 hentry).2)

/-! ## The nodes of the annotated graph -/

/-- The nodes of the annotated graph: the one for unknown targets and those of
the functions. -/
theorem members_eq (hp : Annotatable m p) :
    (buildAnnotated m p).graph.members = unknown :: (m.members p).map ((build m p).nodeAt m) := by
  rw [hp.annotate_eq.1]
  exact hp.depicts.nodes

theorem countNodes_eq (hp : Annotatable m p) {kind : NodeRole} (hkind : kind ≠ .unknown) :
    (buildAnnotated m p).graph.countNodes kind =
      (m.members p).countP fun f => roleOf m (some f) = kind := by
  rw [countNodes, hp.members_eq, List.countP_cons_of_neg, List.countP_map]
  · refine List.countP_congr fun f hf => ?_
    simp only [Function.comp_apply, (hp.node_nodeAt hf).2]
  · simp [hp.kind_unknown, Ne.symm hkind]

/-- The functions that are counted are the defined ones. -/
theorem countNodes_function (hp : Annotatable m p) :
    (buildAnnotated m p).graph.countNodes .function = (m.defined p).length := by
  rw [hp.countNodes_eq (by simp), Model.defined, ← List.countP_eq_length_filter]
  refine List.countP_congr fun f _ => ?_
  cases hf : m.isDeclaration f <;> simp [roleOf, hf]

/-- The external functions that are counted are the declared ones. -/
theorem countNodes_external (hp : Annotatable m p) :
    (buildAnnotated m p).graph.countNodes .external = (m.declared p).length := by
  rw [hp.countNodes_eq (by simp), Model.declared, ← List.countP_eq_length_filter]
  refine List.countP_congr fun f _ => ?_
  cases hf : m.isDeclaration f <;> simp [roleOf, hf]

/-- A node from which an edge starts is that of a defined function. -/
theorem exists_of_mem_callees (hp : Annotatable m p)
    (hedge : w ∈ (buildAnnotated m p).graph.callees v) :
    ∃ f ∈ m.defined p, v = (build m p).nodeAt m f := by
  obtain ⟨f, hf, heq, -⟩ := hp.callees_cases hedge
  exact ⟨f, hf, heq⟩

theorem kind_nodeAt (hp : Annotatable m p) (hf : f ∈ m.defined p) :
    ((buildAnnotated m p).graph.node ((build m p).nodeAt m f)).kind = .function := by
  obtain ⟨hmember, hdefined⟩ := Model.mem_defined_iff.1 hf
  rw [(hp.node_nodeAt hmember).2, roleOf, hdefined]
  rfl

/-- No edge starts at the node for unknown targets. -/
theorem callees_unknown (hp : Annotatable m p) :
    (buildAnnotated m p).graph.callees unknown = [] := by
  rw [List.eq_nil_iff_forall_not_mem]
  intro v hv
  obtain ⟨f, hf, heq⟩ := hp.exists_of_mem_callees hv
  have hkind := hp.kind_nodeAt hf
  rw [← heq, hp.kind_unknown] at hkind
  cases hkind

/-- A node calls itself exactly when its function leads to itself. -/
theorem isRecursive_nodeAt_iff (hp : Annotatable m p) (hf : f ∈ m.members p) :
    (buildAnnotated m p).graph.isRecursive ((build m p).nodeAt m f) = true ↔
      m.Leads p true CallSite.WellFormed f f := by
  rw [isRecursive, List.contains_iff_mem]
  constructor
  · intro hedge
    obtain ⟨k, hk, heq, hend⟩ := hp.callees_cases hedge
    have hkmember := (Model.mem_defined_iff.1 hk).1
    obtain rfl := hp.mirrors.eq_of_nodeAt_eq hf hkmember heq
    rcases hend with ⟨h, hleads, hnode⟩ | hother
    · have hmember := (Model.mem_defined_iff.1
        (hleads.mem_defined hp.coherent hp.refs hf)).1
      rwa [← hp.mirrors.eq_of_nodeAt_eq hf hmember hnode] at hleads
    · exact absurd (hp.kind_nodeAt hk) hother
  · intro hleads
    exact hp.nodeAt_mem_callees_of_leads
      (Model.mem_defined_iff.2 ⟨hf, hleads.not_isDeclaration⟩) hleads

theorem countP_isRecursive (hp : Annotatable m p) :
    (buildAnnotated m p).graph.members.countP (buildAnnotated m p).graph.isRecursive =
      {f | f ∈ m.members p ∧ m.Leads p true CallSite.WellFormed f f}.ncard := by
  have hset : {f | f ∈ m.members p ∧ m.Leads p true CallSite.WellFormed f f} =
      {f | f ∈ (m.members p).filter
        ((buildAnnotated m p).graph.isRecursive ∘ (build m p).nodeAt m)} := by
    ext f
    rw [Set.mem_ofPred_eq, Set.mem_ofPred_eq, List.mem_filter]
    exact and_congr_right fun hf => (hp.isRecursive_nodeAt_iff hf).symm
  have hunknown : ¬(buildAnnotated m p).graph.isRecursive unknown = true := by
    simp [isRecursive, hp.callees_unknown]
  rw [hset, ncard_mem_eq_length (hp.coherent.nodup_members.filter _),
    ← List.countP_eq_length_filter, hp.members_eq, List.countP_cons_of_neg hunknown,
    List.countP_map]

/-! ## Classes of functions -/

/-- A declaration leads nowhere. -/
theorem reach_eq_self {callbacks : Bool} (hf : m.isDeclaration f = true)
    (hpath : h ∈ reach m p callbacks f) : h = f := by
  rcases Relation.ReflTransGen.cases_head hpath with heq | ⟨k, hleads, -⟩
  · exact heq.symm
  · rw [hleads.not_isDeclaration] at hf
    cases hf

/-- A path between the nodes of defined functions is a path of steps. -/
theorem mem_reach_of_reaches (hp : Annotatable m p) (hf : f ∈ m.defined p) (hh : h ∈ m.defined p)
    (hpath : (buildAnnotated m p).graph.Reaches ((build m p).nodeAt m f)
      ((build m p).nodeAt m h)) : h ∈ reach m p true f := by
  rcases hp.reach_of_reaches hf hpath with ⟨k, hk, heq⟩ | hother
  · have hkmember := (Model.mem_defined_iff.1
      (reach_subset_defined hp.coherent hp.refs hf k hk)).1
    rwa [hp.mirrors.eq_of_nodeAt_eq (Model.mem_defined_iff.1 hh).1 hkmember heq]
  · exact absurd (hp.kind_nodeAt hh) hother

/-- The class of the node of a function has the nodes of the functions of its
class. -/
theorem classOf_nodeAt (hp : Annotatable m p) (hf : f ∈ m.members p) :
    (buildAnnotated m p).graph.classOf ((build m p).nodeAt m f) =
      (build m p).nodeAt m '' m.peers p f := by
  ext v
  constructor
  · rintro ⟨hforth, hback⟩
    -- A path is empty or starts with an edge, and then its start is a defined function.
    rcases Relation.ReflTransGen.cases_head hback with heq | ⟨w, hedge, -⟩
    · exact ⟨f, ⟨.refl, .refl⟩, heq.symm⟩
    obtain ⟨h, hh, rfl⟩ := hp.exists_of_mem_callees hedge
    have hhmember := (Model.mem_defined_iff.1 hh).1
    rcases Relation.ReflTransGen.cases_head hforth with heq | ⟨u, hstart, -⟩
    · exact ⟨f, ⟨.refl, .refl⟩, heq⟩
    obtain ⟨k, hk, heq⟩ := hp.exists_of_mem_callees hstart
    obtain rfl := hp.mirrors.eq_of_nodeAt_eq hf (Model.mem_defined_iff.1 hk).1 heq
    exact ⟨h, ⟨hp.mem_reach_of_reaches hk hh hforth, hp.mem_reach_of_reaches hh hk hback⟩, rfl⟩
  · rintro ⟨h, ⟨hforth, hback⟩, rfl⟩
    cases hdeclared : m.isDeclaration f with
    | true =>
      rw [reach_eq_self hdeclared hforth]
      exact ⟨.refl, .refl⟩
    | false =>
      have hdefined := Model.mem_defined_iff.2 ⟨hf, hdeclared⟩
      have hhdefined := reach_subset_defined hp.coherent hp.refs hdefined h hforth
      exact ⟨hp.reaches_of_reach hdefined hforth, hp.reaches_of_reach hhdefined hback⟩

theorem peers_subset_members (hp : Annotatable m p) (hf : f ∈ m.members p) :
    m.peers p f ⊆ {h | h ∈ m.members p} := by
  rintro h ⟨hforth, -⟩
  cases hdeclared : m.isDeclaration f with
  | true =>
    rw [reach_eq_self hdeclared hforth]
    exact hf
  | false =>
    have hdefined := Model.mem_defined_iff.2 ⟨hf, hdeclared⟩
    exact (Model.mem_defined_iff.1
      (reach_subset_defined hp.coherent hp.refs hdefined h hforth)).1

/-- The node for unknown targets is alone in its class. -/
theorem classOf_unknown (hp : Annotatable m p) :
    (buildAnnotated m p).graph.classOf unknown = {unknown} := by
  ext v
  constructor
  · rintro ⟨hforth, -⟩
    rcases Relation.ReflTransGen.cases_head hforth with heq | ⟨w, hedge, -⟩
    · exact heq.symm
    · have hnone : w ∈ (buildAnnotated m p).graph.callees unknown := hedge
      simp [hp.callees_unknown] at hnone
  · rintro rfl
    exact ⟨.refl, .refl⟩

/-- The components with at least two nodes are counted by the classes with at
least two functions. -/
theorem countP_components (hp : Annotatable m p) :
    ((buildAnnotated m p).graph.components.countP fun component => 1 < component.length) =
      {C : Set FunctionId | C.Nontrivial ∧ ∃ f ∈ m.members p, C = m.peers p f}.ncard := by
  have hinjective : Set.InjOn ((build m p).nodeAt m) {f | f ∈ m.members p} :=
    fun f hf h hh heq => hp.mirrors.eq_of_nodeAt_eq hf hh heq
  have hsubset : {C : Set FunctionId | C.Nontrivial ∧ ∃ f ∈ m.members p, C = m.peers p f} ⊆
      𝒫 {f | f ∈ m.members p} := by
    rintro _ ⟨-, f, hf, rfl⟩
    exact hp.peers_subset_members hf
  have himage : {C : Set NodeId | C.Nontrivial ∧ ∃ n ∈ (buildAnnotated m p).graph.members,
      C = (buildAnnotated m p).graph.classOf n} = Set.image ((build m p).nodeAt m) ''
        {C : Set FunctionId | C.Nontrivial ∧ ∃ f ∈ m.members p, C = m.peers p f} := by
    ext C
    constructor
    · rintro ⟨hlarge, n, hn, rfl⟩
      rw [hp.members_eq, List.mem_cons, List.mem_map] at hn
      rcases hn with rfl | ⟨f, hf, rfl⟩
      · rw [hp.classOf_unknown] at hlarge
        exact absurd hlarge Set.not_nontrivial_singleton
      · rw [hp.classOf_nodeAt hf] at hlarge ⊢
        exact ⟨_, ⟨Set.nontrivial_of_image _ _ hlarge, f, hf, rfl⟩, rfl⟩
    · rintro ⟨_, ⟨hlarge, f, hf, rfl⟩, rfl⟩
      refine ⟨hlarge.image_of_injOn (hinjective.mono (hp.peers_subset_members hf)),
        (build m p).nodeAt m f, ?_, (hp.classOf_nodeAt hf).symm⟩
      rw [hp.members_eq]
      exact List.mem_cons_of_mem _ (List.mem_map_of_mem hf)
  rw [(tidy_buildAnnotated m p).countP_components, himage,
    (hinjective.image.mono hsubset).ncard_image]

end Annotatable

/-! ## The figures -/

/-- What the figures of the annotated graph of a program count.  Direct calls
are counted at every call site with a static callee, the other edges only at
sites without a fault.  A function counts as self-recursive when it leads to
itself in one step, and a set of at least two functions counts as a recursive
component when its functions are those that lead to one of them and back. -/
structure Statistics.Counts (m : Model) (p : ProgramId) (s : Statistics) : Prop where
  functions : s.functions = (m.defined p).length
  externalFunctions : s.externalFunctions = (m.declared p).length
  directCalls : s.directCalls =
    (m.programSites p).countP fun entry => entry.2.callee matches .function _
  functionPointerCalls : s.functionPointerCalls =
    ((m.acceptedSites p).map fun entry => {g | entry.2.MayCall m p g}.ncard).sum
  callbackEdges : s.callbackEdges =
    ((m.acceptedSites p).map fun entry => {g | entry.2.MayPass m p g}.ncard).sum
  unresolvedCalls : s.unresolvedCalls = (m.acceptedSites p).countP fun entry =>
    entry.2.isIndirect ∧ ∀ g ∈ m.defined p, entry.2.calledType ≠ some (m.type g)
  totalEdges : s.totalEdges =
    s.directCalls + s.functionPointerCalls + s.callbackEdges + s.unresolvedCalls
  selfRecursiveFunctions : s.selfRecursiveFunctions =
    {f | f ∈ m.members p ∧ m.Leads p true CallSite.WellFormed f f}.ncard
  recursiveComponents : s.recursiveComponents =
    {C : Set FunctionId | C.Nontrivial ∧ ∃ f ∈ m.members p, C = m.peers p f}.ncard

namespace Annotatable

theorem edgeCount_functionPointer (hp : Annotatable m p) :
    (buildAnnotated m p).graph.edgeCount .functionPointer =
      ((m.acceptedSites p).map fun entry => {g | entry.2.MayCall m p g}.ncard).sum := by
  rw [hp.edgeCount_eq, if_neg (by decide), Nat.zero_add]
  congr 1
  refine List.map_congr_left fun entry _ => ?_
  exact CallSite.length_pointerTargets hp.coherent entry.2

theorem edgeCount_callback (hp : Annotatable m p) :
    (buildAnnotated m p).graph.edgeCount .callback =
      ((m.acceptedSites p).map fun entry => {g | entry.2.MayPass m p g}.ncard).sum := by
  rw [hp.edgeCount_eq, if_neg (by decide), Nat.zero_add]
  congr 1
  refine List.map_congr_left fun entry hentry => ?_
  obtain ⟨f, hf, hmem⟩ := List.mem_flatMap.1 (List.mem_of_mem_filter hentry)
  exact hp.coherent.length_passedTargets hp.refs hf hmem

theorem edgeCount_unresolved (hp : Annotatable m p) :
    (buildAnnotated m p).graph.edgeCount .unresolved =
      (m.acceptedSites p).countP fun entry =>
        entry.2.isIndirect ∧ ∀ g ∈ m.defined p, entry.2.calledType ≠ some (m.type g) := by
  have hnone (site : CallSite) :
      (site.isIndirect && (site.pointerTargets (TypeIndex.ofProgram m p)).isEmpty) = true ↔
        site.isIndirect = true ∧ ∀ g ∈ m.defined p, site.calledType ≠ some (m.type g) := by
    rw [Bool.and_eq_true, List.isEmpty_iff, List.eq_nil_iff_forall_not_mem]
    refine and_congr_right fun hindirect => forall_congr' fun g => ?_
    rw [CallSite.mem_pointerTargets_iff (TypeIndex.exact_ofProgram hp.coherent),
      CallSite.MayCall]
    have hcallee : site.callee = .absent := by
      unfold CallSite.isIndirect at hindirect
      split at hindirect
      · assumption
      · cases hindirect
    simp [hcallee]
    tauto
  rw [hp.edgeCount_eq, if_neg (by decide), Nat.zero_add]
  simp only [resolvedCount, List.sum_map_ite, hnone]
  simp [List.countP_eq_length_filter]

theorem edgeCount_direct (hp : Annotatable m p) :
    (buildAnnotated m p).graph.edgeCount .direct =
      (m.programSites p).countP fun entry => entry.2.callee matches .function _ := by
  rw [hp.edgeCount_eq, if_pos rfl]
  simp [resolvedCount]

end Annotatable

/-- The figures of the annotated graph of a consistent program without a
function named like the node for unknown targets count what `Counts` says. -/
theorem statistics_counts (hmade : m.Made) (hvalid : m.checkRefs p = .ok ())
    (hunknown : m.find? p unknownId = none) :
    Statistics.Counts m p
      (annotate m (TypeIndex.ofProgram m p) (build m p)).graph.statistics := by
  have hp : Annotatable m p := ⟨hmade.coherent, hvalid, hunknown⟩
  show Statistics.Counts m p (buildAnnotated m p).graph.statistics
  exact ⟨hp.countNodes_function, hp.countNodes_external, hp.edgeCount_direct,
    hp.edgeCount_functionPointer, hp.edgeCount_callback, hp.edgeCount_unresolved, size_edges _,
    hp.countP_isRecursive, hp.countP_components⟩

namespace Switchboard

open Model.Relay (handler worker)

/-- The edits that make a program with edges of every kind.  `main` and `connect`
call each other, `main` calls some handler, `connect` passes `hangUp` and calls
something that no function answers, and `ring` calls itself.  The call of
`idle` has a callee, and an argument that makes it malformed. -/
def edits : List Edit :=
  [.newProgram "switchboard", .create ⟨0⟩ "main" worker true, .create ⟨0⟩ "connect" worker true,
   .create ⟨0⟩ "log" worker false, .create ⟨0⟩ "ring" handler true,
   .create ⟨0⟩ "hangUp" handler true, .create ⟨0⟩ "idle" worker true,
   .newBlock ⟨0⟩ none, .newCall ⟨⟨0⟩, 0⟩ (.function ⟨1⟩) [] none .call,
   .newCall ⟨⟨0⟩, 0⟩ .absent [] (some handler) .call,
   .newBlock ⟨1⟩ none, .newCall ⟨⟨1⟩, 0⟩ (.function ⟨0⟩) [] none .call,
   .newCall ⟨⟨1⟩, 0⟩ (.function ⟨2⟩) [.ref ⟨4⟩, .ref ⟨4⟩] none .invoke,
   .newCall ⟨⟨1⟩, 0⟩ .absent [] (some (.signature (.scalar "i8") [] false)) .call,
   .newBlock ⟨3⟩ none, .newCall ⟨⟨3⟩, 0⟩ (.function ⟨3⟩) [] none .call,
   .newBlock ⟨5⟩ none, .newCall ⟨⟨5⟩, 0⟩ (.function ⟨0⟩) [.ref ⟨3⟩, .other .null] none .call]

/-- The model that these edits make. -/
def model : Model where
  functions := #[
    ⟨"main", worker, some [⟨"bb0", [⟨.function ⟨1⟩, some worker, [], .call⟩,
      ⟨.absent, some handler, [], .call⟩]⟩], some ⟨0⟩⟩,
    ⟨"connect", worker, some [⟨"bb0", [⟨.function ⟨0⟩, some worker, [], .call⟩,
      ⟨.function ⟨2⟩, some worker, [.ref ⟨4⟩, .ref ⟨4⟩], .invoke⟩,
      ⟨.absent, some (.signature (.scalar "i8") [] false), [], .call⟩]⟩], some ⟨0⟩⟩,
    ⟨"log", worker, none, some ⟨0⟩⟩,
    ⟨"ring", handler, some [⟨"bb0", [⟨.function ⟨3⟩, some handler, [], .call⟩]⟩], some ⟨0⟩⟩,
    ⟨"hangUp", handler, some [], some ⟨0⟩⟩,
    ⟨"idle", worker, some [⟨"bb0", [⟨.function ⟨0⟩, some worker, [.ref ⟨3⟩, .other .null],
      .call⟩]⟩], some ⟨0⟩⟩]
  programs := #[⟨"switchboard", 17, [("main", ⟨0⟩), ("connect", ⟨1⟩), ("log", ⟨2⟩),
    ("ring", ⟨3⟩), ("hangUp", ⟨4⟩), ("idle", ⟨5⟩)]⟩]

theorem made : model.Made :=
  .applyAll .empty (show Edit.applyAll .empty edits = some model from rfl)

end Switchboard

/-- The figures of a program with edges of every kind, one of them the direct
call of a malformed site. -/
theorem statistics_counts_switchboard :
    Statistics.Counts Switchboard.model ⟨0⟩
      { functions := 5, externalFunctions := 1, totalEdges := 9, directCalls := 5,
        functionPointerCalls := 2, callbackEdges := 1, unresolvedCalls := 1,
        recursiveComponents := 1, selfRecursiveFunctions := 1 } := by
  have hcounts := statistics_counts (p := ⟨0⟩) Switchboard.made rfl rfl
  have hp : Annotatable Switchboard.model ⟨0⟩ := ⟨Switchboard.made.coherent, rfl, rfl⟩
  have hfigures : (annotate Switchboard.model (TypeIndex.ofProgram Switchboard.model ⟨0⟩)
      (build Switchboard.model ⟨0⟩)).graph.statistics = ⟨5, 1, 9, 5, 2, 1, 1, 1, 1⟩ := by
    refine (congrArg statistics hp.annotate_eq.1).trans ?_
    cbv
  rwa [hfigures] at hcounts

end CallGraph

end CallReach
