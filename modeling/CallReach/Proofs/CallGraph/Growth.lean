import CallReach.CallGraph.Build
import CallReach.Proofs.Table

/-!
# How call graphs grow

Nodes and edges are only ever added to a call graph.  `Grows` says what stays:
a node keeps its data, and what is found under an id is found there later.

* `Tidy` is the invariant of the graphs that are built and extended here: the
  table has each node under its own id, once, and edges join nodes of the table.
* `Annotates` is what annotating does: the graph grows, stays tidy and has the
  same direct edges as before.  `annotates_annotate` says so for every index.
* `Grown` lists the ways to extend a graph that was built, and `Grown.tidy`
  carries the invariant along them.
-/

namespace CallReach.CallGraph

variable {g grown : CallGraph} {m : Model} {f : FunctionId}

/-! ## Growth -/

/-- A graph with more nodes and edges. -/
structure Grows (g grown : CallGraph) : Prop where
  program : grown.program = g.program
  revision : grown.revision = g.revision
  table : g.table <+: grown.table
  size : g.nodes.size ≤ grown.nodes.size
  node : ∀ n : NodeId, n.index < g.nodes.size → grown.node n = g.node n

namespace Grows

theorem refl (g : CallGraph) : Grows g g :=
  ⟨rfl, rfl, List.prefix_refl _, Nat.le_refl _, fun _ _ => rfl⟩

theorem trans {later : CallGraph} (first : Grows g grown) (second : Grows grown later) :
    Grows g later where
  program := second.program.trans first.program
  revision := second.revision.trans first.revision
  table := first.table.trans second.table
  size := Nat.le_trans first.size second.size
  node n hn :=
    (second.node n (Nat.lt_of_lt_of_le hn first.size)).trans (first.node n hn)

theorem find? (h : Grows g grown) {id : String} {n : NodeId} (hfind : g.find? id = some n) :
    grown.find? id = some n :=
  h.table.lookup_eq_some hfind

theorem mem_members (h : Grows g grown) {n : NodeId} (hn : n ∈ g.members) :
    n ∈ grown.members :=
  (h.table.map (·.2)).subset hn

end Grows

theorem ensureNode_of_find? {n : NodeId} (h : g.find? (m.name f) = some n) :
    g.ensureNode m f = (g, n) := by
  rw [ensureNode, h]

/-- A new node is put at the end. -/
theorem ensureNode_of_none (h : g.find? (m.name f) = none) :
    g.ensureNode m f =
      ({ g with
          nodes := g.nodes.push ⟨m.name f, if m.isDeclaration f then .external else .function,
            some f⟩
          table := g.table ++ [(m.name f, ⟨g.nodes.size⟩)] }, ⟨g.nodes.size⟩) := by
  rw [ensureNode, h]

theorem grows_ensureNode : Grows g (g.ensureNode m f).1 := by
  cases hfind : g.find? (m.name f) with
  | some n =>
    rw [ensureNode_of_find? hfind]
    exact .refl g
  | none =>
    rw [ensureNode_of_none hfind]
    refine ⟨rfl, rfl, List.prefix_append _ _, by simp, fun n hn => ?_⟩
    have hne : n.index ≠ g.nodes.size := Nat.ne_of_lt hn
    simp [node, Array.getD_eq_getD_getElem?, Array.getElem?_push, hne]

theorem grows_connect (edge : Edge) : Grows g (g.connect edge) :=
  ⟨rfl, rfl, List.prefix_refl _, Nat.le_refl _, fun _ _ => rfl⟩

@[simp]
theorem edges_ensureNode : (g.ensureNode m f).1.edges = g.edges := by
  unfold ensureNode
  split <;> rfl

/-- The node that is there afterwards is the one under the name. -/
theorem find?_ensureNode : (g.ensureNode m f).1.find? (m.name f) = some (g.ensureNode m f).2 := by
  cases hfind : g.find? (m.name f) with
  | some n =>
    rw [ensureNode_of_find? hfind]
    exact hfind
  | none =>
    rw [ensureNode_of_none hfind]
    rw [find?] at hfind
    simp [find?, List.lookup_append, hfind]

/-- Under other names nothing changes. -/
theorem find?_ensureNode_of_ne {id : String} (hne : id ≠ m.name f) :
    (g.ensureNode m f).1.find? id = g.find? id := by
  cases hfind : g.find? (m.name f) with
  | some n => rw [ensureNode_of_find? hfind]
  | none =>
    rw [ensureNode_of_none hfind, find?, List.lookup_append, find?]
    simp [List.lookup_cons, beq_eq_false_iff_ne.2 hne]

theorem ensureNode_mem_members : (g.ensureNode m f).2 ∈ (g.ensureNode m f).1.members :=
  List.mem_map.2 ⟨_, Table.mem_of_lookup find?_ensureNode, rfl⟩

/-! ## Tidy graphs -/

/-- The table has each node under its own id, once, and edges join nodes of the
table.  The node for unknown targets is one of them. -/
structure Tidy (g : CallGraph) : Prop where
  idOf_of_mem : ∀ {id n}, (id, n) ∈ g.table → g.idOf n = id
  index_lt : ∀ {n}, n ∈ g.members → n.index < g.nodes.size
  nodup_ids : (g.table.map (·.1)).Nodup
  unknown_mem : unknown ∈ g.members
  caller_mem : ∀ edge ∈ g.edges.toList, edge.caller ∈ g.members
  callee_mem : ∀ edge ∈ g.edges.toList, edge.callee ∈ g.members

namespace Tidy

theorem start (m : Model) (p : ProgramId) : (CallGraph.start m p).Tidy := by
  constructor <;> simp [CallGraph.start, members, idOf, node, unknown, Array.getD]

theorem ensureNode (hg : g.Tidy) (m : Model) (f : FunctionId) : (g.ensureNode m f).1.Tidy := by
  have hgrows : Grows g (g.ensureNode m f).1 := grows_ensureNode
  cases hfind : g.find? (m.name f) with
  | some n =>
    rw [ensureNode_of_find? hfind]
    exact hg
  | none =>
    have hunknown := hgrows.mem_members hg.unknown_mem
    have hcaller : ∀ edge ∈ (g.ensureNode m f).1.edges.toList,
        edge.caller ∈ (g.ensureNode m f).1.members := by
      intro edge hedge
      rw [edges_ensureNode] at hedge
      exact hgrows.mem_members (hg.caller_mem edge hedge)
    have hcallee : ∀ edge ∈ (g.ensureNode m f).1.edges.toList,
        edge.callee ∈ (g.ensureNode m f).1.members := by
      intro edge hedge
      rw [edges_ensureNode] at hedge
      exact hgrows.mem_members (hg.callee_mem edge hedge)
    have hnode := hgrows.node
    rw [ensureNode_of_none hfind] at hunknown hcaller hcallee hnode ⊢
    refine ⟨?_, ?_, Table.nodup_keys_append hg.nodup_ids hfind, hunknown, hcaller, hcallee⟩
    · intro id n hmem
      rcases List.mem_append.1 hmem with hold | hnew
      · have hlt := hg.index_lt (List.mem_map.2 ⟨_, hold, rfl⟩)
        rw [idOf, hnode n hlt]
        exact hg.idOf_of_mem hold
      · obtain ⟨rfl, rfl⟩ := Prod.mk.inj (List.mem_singleton.1 hnew)
        simp [idOf, node, Array.getD_eq_getD_getElem?]
    · intro n hmem
      simp only [members, List.map_append, List.map_cons, List.map_nil, List.mem_append,
        List.mem_singleton] at hmem
      rcases hmem with hold | hnew
      · have hlt : n.index < g.nodes.size := hg.index_lt hold
        simp only [Array.size_push]
        omega
      · subst hnew
        simp

theorem connect (hg : g.Tidy) {edge : Edge} (hcaller : edge.caller ∈ g.members)
    (hcallee : edge.callee ∈ g.members) : (g.connect edge).Tidy := by
  refine ⟨hg.idOf_of_mem, hg.index_lt, hg.nodup_ids, hg.unknown_mem, ?_, ?_⟩
  · intro other hother
    simp only [CallGraph.connect, Array.toList_push, List.mem_append, List.mem_singleton] at hother
    rcases hother with hold | rfl
    · exact hg.caller_mem other hold
    · exact hcaller
  · intro other hother
    simp only [CallGraph.connect, Array.toList_push, List.mem_append, List.mem_singleton] at hother
    rcases hother with hold | rfl
    · exact hg.callee_mem other hold
    · exact hcallee

/-- What is found under an id has that id. -/
theorem find?_eq_some_iff (hg : g.Tidy) {id : String} {n : NodeId} :
    g.find? id = some n ↔ n ∈ g.members ∧ g.idOf n = id := by
  constructor
  · intro h
    have hmem := Table.mem_of_lookup h
    exact ⟨List.mem_map.2 ⟨_, hmem, rfl⟩, hg.idOf_of_mem hmem⟩
  · rintro ⟨hmem, rfl⟩
    obtain ⟨⟨id, n⟩, hentry, rfl⟩ := List.mem_map.1 hmem
    rw [hg.idOf_of_mem hentry]
    exact Table.lookup_of_mem hg.nodup_ids hentry

/-- Nodes of the table are told apart by their ids. -/
theorem eq_of_idOf_eq (hg : g.Tidy) {u v : NodeId} (hu : u ∈ g.members) (hv : v ∈ g.members)
    (h : g.idOf u = g.idOf v) : u = v := by
  have hfind := hg.find?_eq_some_iff.2 ⟨hu, h⟩
  rw [hg.find?_eq_some_iff.2 ⟨hv, rfl⟩] at hfind
  exact (Option.some.inj hfind).symm

end Tidy

/-! ## Annotating -/

/-- The edges of calls whose callee is statically known. -/
def directEdges (g : CallGraph) : List Edge :=
  g.edges.toList.filter (·.resolution = .direct)

/-- A graph that has grown without new direct edges. -/
structure Annotates (g grown : CallGraph) : Prop extends Grows g grown where
  direct : grown.directEdges = g.directEdges
  tidy : g.Tidy → grown.Tidy

namespace Annotates

theorem refl (g : CallGraph) : Annotates g g :=
  ⟨.refl g, rfl, id⟩

theorem trans {later : CallGraph} (first : Annotates g grown) (second : Annotates grown later) :
    Annotates g later :=
  ⟨first.toGrows.trans second.toGrows, second.direct.trans first.direct,
    fun hg => second.tidy (first.tidy hg)⟩

theorem ensureNode (m : Model) (f : FunctionId) : Annotates g (g.ensureNode m f).1 :=
  ⟨grows_ensureNode, by simp [directEdges], fun hg => hg.ensureNode m f⟩

theorem connect {edge : Edge} (hresolution : edge.resolution ≠ .direct)
    (hcaller : edge.caller ∈ g.members) (hcallee : edge.callee ∈ g.members) :
    Annotates g (g.connect edge) :=
  ⟨grows_connect edge, by simp [directEdges, CallGraph.connect, hresolution],
    fun hg => hg.connect hcaller hcallee⟩

end Annotates

theorem annotates_connectAll {caller : NodeId} (hcaller : caller ∈ g.members) (m : Model)
    (site : SiteId) {resolution : Resolution} (hresolution : resolution ≠ .direct)
    (targets : FunctionSet) :
    Annotates g (connectAll m caller site resolution targets g) := by
  unfold connectAll
  generalize m.sorted targets = sorted
  induction sorted generalizing g with
  | nil => exact .refl g
  | cons f rest ih =>
    have hnode : Annotates g (g.ensureNode m f).1 := .ensureNode m f
    have hcaller' := hnode.mem_members hcaller
    have hedge : Annotates (g.ensureNode m f).1
        ((g.ensureNode m f).1.connect
          ⟨caller, (g.ensureNode m f).2, some site, resolution⟩) :=
      .connect hresolution hcaller' ensureNode_mem_members
    exact (hnode.trans hedge).trans (ih (hedge.mem_members hcaller'))

theorem annotates_annotateSite (hg : g.Tidy) {caller : NodeId} (hcaller : caller ∈ g.members)
    (m : Model) (index : TypeIndex) (id : SiteId) (site : CallSite) :
    Annotates g (annotateSite m index caller id site g) := by
  have hunresolved : Annotates g
      (if site.isIndirect && (site.pointerTargets index).isEmpty then
        g.connect ⟨caller, unknown, some id, .unresolved⟩ else g) := by
    split
    · exact .connect (by simp) hcaller hg.unknown_mem
    · exact .refl g
  have hpointers := annotates_connectAll (hunresolved.mem_members hcaller) m id
    (show Resolution.functionPointer ≠ .direct by decide) (site.pointerTargets index)
  have hpassed := annotates_connectAll
    (hpointers.mem_members (hunresolved.mem_members hcaller)) m id
    (show Resolution.callback ≠ .direct by decide) (site.passedTargets m index)
  exact (hunresolved.trans hpointers).trans hpassed

theorem annotates_annotateSites (hg : g.Tidy) (m : Model) (index : TypeIndex)
    (sites : List (SiteId × CallSite)) :
    Annotates g (annotateSites m index g sites).graph := by
  induction sites generalizing g with
  | nil => exact .refl g
  | cons entry rest ih =>
    obtain ⟨id, site⟩ := entry
    rw [annotateSites]
    split
    · exact ih hg
    · dsimp only
      split
      · exact .refl g
      · rename_i caller hcaller
        have hmem : caller ∈ g.members := (hg.find?_eq_some_iff.1 hcaller).1
        have hsite := annotates_annotateSite hg hmem m index id site
        exact hsite.trans (ih (hsite.tidy hg))

/-- Whatever the index, annotating a graph leaves its direct edges alone. -/
theorem annotates_annotate (hg : g.Tidy) (m : Model) (index : TypeIndex) :
    Annotates g (annotate m index g).graph :=
  annotates_annotateSites hg m index _

/-! ## Graphs that are built and extended -/

/-- The call graphs of programs, and what can be made of them by adding nodes,
edges between nodes of the graph, and annotations.  The model may be another
one each time. -/
inductive Grown : CallGraph → Prop where
  | build (m : Model) (p : ProgramId) : Grown (build m p)
  | ensureNode {g : CallGraph} (h : Grown g) (m : Model) (f : FunctionId) :
      Grown (g.ensureNode m f).1
  | connect {g : CallGraph} (h : Grown g) {edge : Edge} (hcaller : edge.caller ∈ g.members)
      (hcallee : edge.callee ∈ g.members) : Grown (g.connect edge)
  | annotate {g : CallGraph} (h : Grown g) (m : Model) (index : TypeIndex) :
      Grown (annotate m index g).graph

theorem Tidy.connectSite (hg : g.Tidy) {caller : NodeId} (hcaller : caller ∈ g.members)
    (m : Model) (entry : SiteId × CallSite) :
    (connectSite m caller g entry).Tidy ∧ caller ∈ (connectSite m caller g entry).members := by
  unfold CallGraph.connectSite
  split
  · rename_i f hcallee
    have hcaller' : caller ∈ (g.ensureNode m f).1.members :=
      grows_ensureNode.mem_members hcaller
    exact ⟨(hg.ensureNode m f).connect hcaller' ensureNode_mem_members, hcaller'⟩
  · exact ⟨hg, hcaller⟩

theorem Tidy.connectFunction (hg : g.Tidy) (m : Model) (f : FunctionId) :
    (connectFunction m g f).Tidy := by
  have hfold : ∀ (sites : List (SiteId × CallSite)) (g : CallGraph) (caller : NodeId),
      g.Tidy → caller ∈ g.members → (sites.foldl (CallGraph.connectSite m caller) g).Tidy := by
    intro sites
    induction sites with
    | nil =>
      intro g caller hg _
      exact hg
    | cons entry rest ih =>
      intro g caller hg hcaller
      obtain ⟨hnext, hcaller'⟩ := hg.connectSite hcaller m entry
      exact ih _ caller hnext hcaller'
  exact hfold _ _ _ (hg.ensureNode m f) ensureNode_mem_members

theorem tidy_build (m : Model) (p : ProgramId) : (build m p).Tidy := by
  have hnodes : ∀ (functions : List FunctionId) (g : CallGraph), g.Tidy →
      (functions.foldl (fun g f => (g.ensureNode m f).1) g).Tidy := by
    intro functions
    induction functions with
    | nil => exact fun g hg => hg
    | cons f rest ih => exact fun g hg => ih _ (hg.ensureNode m f)
  have hedges : ∀ (functions : List FunctionId) (g : CallGraph), g.Tidy →
      (functions.foldl (connectFunction m) g).Tidy := by
    intro functions
    induction functions with
    | nil => exact fun g hg => hg
    | cons f rest ih => exact fun g hg => ih _ (hg.connectFunction m f)
  exact hedges _ _ (hnodes _ _ (.start m p))

theorem Grown.tidy (h : g.Grown) : g.Tidy := by
  induction h with
  | build m p => exact tidy_build m p
  | ensureNode _ m f ih => exact ih.ensureNode m f
  | connect _ hcaller hcallee ih => exact ih.connect hcaller hcallee
  | annotate _ m index ih => exact (annotates_annotate ih m index).tidy ih

end CallReach.CallGraph
