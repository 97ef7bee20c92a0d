import CallReach.Proofs.CallGraph.Building

/-!
# What a built graph shows

The nodes of a built graph are kept under the names of functions, in one table
with the node for unknown targets.  `Depicts` says what such a graph shows of a
program when only some of its functions have nodes of their own: the others are
shown by the node for unknown targets.

* `members_foldl_ensureNode`: the first pass of `build` makes one node for each
  function whose name is free, in order.
* `depicts_build`: in the graph of a consistent program every function has its
  node but one that is named like the node for unknown targets.

`build_faithful_iff` is the result: a graph is faithful exactly when no function
has that name.
-/

namespace CallReach.CallGraph

variable {g : CallGraph} {m : Model} {p : ProgramId} {f : FunctionId}

/-! ## Faithful graphs -/

/-- A graph of a program in which these functions have nodes of their own.  The
edges are the calls with a static callee, function by function; a function
without a node calls and is called at the node for unknown targets. -/
structure Depicts (m : Model) (p : ProgramId) (functions : List FunctionId) (g : CallGraph) :
    Prop where
  seated : ∀ f ∈ functions, g.nodeOf? m f = some (g.nodeAt m f) ∧
    g.node (g.nodeAt m f) = ⟨m.name f, roleOf m (some f), some f⟩
  unseated : ∀ f ∈ m.members p, f ∉ functions → g.nodeOf? m f = none
  nodes : g.members = unknown :: functions.map (g.nodeAt m)
  nodup : g.members.Nodup
  sink : g.node unknown = ⟨unknownId, .unknown, none⟩
  edges : g.edges.toList = (m.members p).flatMap (callEdges m g)

/-- A graph in which all functions of the program have nodes, and nothing is
called from the node for unknown targets. -/
structure Faithful (m : Model) (p : ProgramId) (g : CallGraph) : Prop
    extends Depicts m p (m.members p) g where
  final : g.outEdges unknown = []

/-- Where all functions have nodes, nothing is called from the node for unknown
targets. -/
theorem Depicts.outEdges_unknown (hg : Depicts m p (m.members p) g) :
    g.outEdges unknown = [] := by
  rw [outEdges, List.filter_eq_nil_iff, hg.edges]
  intro edge hedge
  obtain ⟨f, hf, hcall⟩ := List.mem_flatMap.1 hedge
  obtain ⟨entry, -, hentry⟩ := List.mem_filterMap.1 hcall
  rw [decide_eq_true_iff, callEdge?_caller hentry]
  intro heq
  have hnode := (hg.seated f hf).2
  rw [heq, hg.sink] at hnode
  simp at hnode

/-! ## Nodes -/

/-- Nodes of the table have distinct ids, so they are distinct. -/
theorem Tidy.nodup_members (hg : g.Tidy) : g.members.Nodup := by
  have hids : g.members.map g.idOf = g.table.map (·.1) := by
    rw [members, List.map_map]
    refine List.map_congr_left fun entry hentry => ?_
    exact hg.idOf_of_mem hentry
  refine List.Nodup.of_map g.idOf ?_
  rw [hids]
  exact hg.nodup_ids

/-- The first pass makes a node for each function whose name is free, in
order. -/
theorem members_foldl_ensureNode {functions : List FunctionId} (hg : g.Tidy)
    (hnames : (functions.map m.name).Nodup) :
    (functions.foldl (fun g f => (g.ensureNode m f).1) g).members =
      g.members ++ (functions.filter fun f => g.find? (m.name f) = none).map
        ((functions.foldl (fun g f => (g.ensureNode m f).1) g).nodeAt m) := by
  induction functions generalizing g with
  | nil => simp
  | cons f rest ih =>
    rw [List.map_cons, List.nodup_cons] at hnames
    rw [List.foldl_cons, ih (hg.ensureNode m f) hnames.2]
    have hrest : (rest.filter fun h => (g.ensureNode m f).1.find? (m.name h) = none) =
        rest.filter fun h => g.find? (m.name h) = none := by
      refine List.filter_congr fun h hh => ?_
      rw [find?_ensureNode_of_ne fun heq => hnames.1 (heq ▸ List.mem_map_of_mem hh)]
    rw [hrest]
    cases hfind : g.find? (m.name f) with
    | some n => simp [hfind, ensureNode_of_find? hfind]
    | none =>
      have hgrows := (grows_foldl_ensureNode (m := m) rest (g.ensureNode m f).1).1
      have hnode := nodeAt_of_nodeOf?
        (hgrows.nodeOf? (hg.ensureNode m f) (nodeOf?_ensureNode hfind))
      have hmembers : (g.ensureNode m f).1.members = g.members ++ [⟨g.nodes.size⟩] := by
        simp [ensureNode_of_none hfind, members]
      simp [hfind, hmembers, hnode]

/-- A node that stands for a function has its name and its kind. -/
theorem node_nodeAt_build (h : (build m p).nodeOf? m f = some ((build m p).nodeAt m f)) :
    (build m p).node ((build m p).nodeAt m f) = ⟨m.name f, roleOf m (some f), some f⟩ := by
  obtain ⟨hfind, hfunction⟩ := nodeOf?_eq_some_iff.1 h
  have hid := ((tidy_build m p).find?_eq_some_iff.1 hfind).2
  have hkind := (plain_build m p).kind ((build m p).nodeAt m f)
  rw [idOf] at hid
  generalize (build m p).node ((build m p).nodeAt m f) = found at hid hkind hfunction
  obtain ⟨id, kind, function⟩ := found
  subst hid hfunction
  have hrole : kind = roleOf m (some f) := hkind
  rw [hrole]

/-- A declaration has no calls. -/
theorem callEdges_of_isDeclaration (hf : m.isDeclaration f = true) : callEdges m g f = [] := by
  rw [callEdges, Model.sites_of_isDeclaration hf, List.filterMap_nil]

/-! ## The result -/

/-- In the graph of a consistent program every function has its node but one
that is named like the node for unknown targets. -/
theorem depicts_build (hm : m.Coherent) (hrefs : m.checkRefs p = .ok ()) :
    Depicts m p ((m.members p).filter fun f => m.name f ≠ unknownId) (build m p) := by
  have hnames : ((m.members p).map m.name).Nodup := by
    rw [hm.map_name_members]
    exact hm.nodup_names p
  have hseats : (build m p).nodeOf? m = (seats m p).nodeOf? m := by
    rw [build_eq hm hrefs]
    rfl
  have hseated : ∀ f ∈ (m.members p).filter fun f => m.name f ≠ unknownId,
      (build m p).nodeOf? m f = some ((build m p).nodeAt m f) := by
    intro f hf
    obtain ⟨hmember, hname⟩ := List.mem_filter.1 hf
    have hnode := nodeOf?_seats hm hmember (by simpa using hname)
    rw [nodeAt, hseats]
    rwa [nodeAt] at hnode
  refine ⟨fun f hf => ⟨hseated f hf, node_nodeAt_build (hseated f hf)⟩, ?_, ?_,
    (tidy_build m p).nodup_members, ?_, ?_⟩
  · intro f hf hother
    rw [hseats]
    refine nodeOf?_seats_eq_none ?_
    by_contra hname
    exact hother (List.mem_filter.2 ⟨hf, by simpa using hname⟩)
  · have hfree : ((m.members p).filter fun f => (start m p).find? (m.name f) = none) =
        (m.members p).filter fun f => m.name f ≠ unknownId := by
      refine List.filter_congr fun f _ => ?_
      rw [decide_eq_decide, find?_start_eq_none_iff]
    have hmembers := members_foldl_ensureNode (Tidy.start m p) hnames
    rw [hfree] at hmembers
    rw [build_eq hm hrefs]
    exact hmembers
  · rw [build_eq hm hrefs]
    exact node_seats_unknown
  · rw [edges_build hm hrefs]
    exact Model.flatMap_defined fun f hf => callEdges_of_isDeclaration hf

/-- If no function is named like the node for unknown targets, all of them have their
nodes. -/
theorem depicts_build_of_find?_eq_none (hm : m.Coherent) (hrefs : m.checkRefs p = .ok ())
    (hunknown : m.find? p unknownId = none) : Depicts m p (m.members p) (build m p) := by
  have hdepicts := depicts_build hm hrefs
  have hall : ((m.members p).filter fun f => m.name f ≠ unknownId) = m.members p := by
    refine List.filter_eq_self.2 fun f hf => ?_
    rw [decide_eq_true_iff]
    exact hm.find?_eq_none_iff.1 hunknown f hf
  rwa [hall] at hdepicts

/-- A function that is named like the node for unknown targets has no node. -/
theorem Faithful.find?_unknownId (hm : m.Coherent) (hrefs : m.checkRefs p = .ok ())
    (hfaithful : Faithful m p (build m p)) : m.find? p unknownId = none := by
  refine hm.find?_eq_none_iff.2 fun f hf hname => ?_
  have hnone := (depicts_build hm hrefs).unseated f hf (by simp [hname])
  rw [(hfaithful.seated f hf).1] at hnone
  cases hnone

/-- The graph of a consistent program shows every function, call and node as it
should, except for a function that is named like the node for unknown targets:
that function has no node of its own, and its calls are shown as calls of the
node for unknown targets.  So the graph is faithful exactly when no function has
that name. -/
theorem build_faithful_iff (hmade : m.Made) (hrefs : m.checkRefs p = .ok ()) :
    Depicts m p ((m.members p).filter fun f => m.name f ≠ unknownId) (build m p) ∧
      (Faithful m p (build m p) ↔ m.find? p unknownId = none) := by
  have hm := hmade.coherent
  refine ⟨depicts_build hm hrefs, Faithful.find?_unknownId hm hrefs, fun hunknown => ?_⟩
  have hdepicts := depicts_build_of_find?_eq_none hm hrefs hunknown
  exact ⟨hdepicts, hdepicts.outEdges_unknown⟩

namespace Clash

/-- The edits that make a program with a function that is named like the node
for unknown targets.  `main` calls it, and it calls a declaration. -/
def edits : List Edit :=
  [.newProgram "clash", .create ⟨0⟩ "main" Model.Relay.worker true,
   .create ⟨0⟩ unknownId Model.Relay.worker true, .create ⟨0⟩ "log" Model.Relay.worker false,
   .newBlock ⟨0⟩ none, .newCall ⟨⟨0⟩, 0⟩ (.function ⟨1⟩) [] none .call,
   .newBlock ⟨1⟩ none, .newCall ⟨⟨1⟩, 0⟩ (.function ⟨2⟩) [] none .call]

/-- The model that these edits make. -/
def model : Model where
  functions := #[
    ⟨"main", Model.Relay.worker, some [⟨"bb0", [⟨.function ⟨1⟩, some Model.Relay.worker, [],
      .call⟩]⟩], some ⟨0⟩⟩,
    ⟨unknownId, Model.Relay.worker, some [⟨"bb0", [⟨.function ⟨2⟩, some Model.Relay.worker, [],
      .call⟩]⟩], some ⟨0⟩⟩,
    ⟨"log", Model.Relay.worker, none, some ⟨0⟩⟩]
  programs := #[⟨"clash", 7, [("main", ⟨0⟩), (unknownId, ⟨1⟩), ("log", ⟨2⟩)]⟩]

theorem made : model.Made :=
  .applyAll .empty (show Edit.applyAll .empty edits = some model from rfl)

end Clash

theorem build_faithful_iff_relay_clash :
    Faithful Model.Relay.model ⟨0⟩ (build Model.Relay.model ⟨0⟩) ∧
      Depicts Clash.model ⟨0⟩ [⟨0⟩, ⟨2⟩] (build Clash.model ⟨0⟩) ∧
      ¬Faithful Clash.model ⟨0⟩ (build Clash.model ⟨0⟩) := by
  obtain ⟨-, hrelay⟩ := build_faithful_iff (p := ⟨0⟩) Model.Relay.made rfl
  obtain ⟨hclash, hnot⟩ := build_faithful_iff (p := ⟨0⟩) Clash.made rfl
  refine ⟨hrelay.2 rfl, hclash, fun hfaithful => ?_⟩
  cases hnot.1 hfaithful

/-- Not every consistent program has a faithful graph. -/
theorem not_forall_faithful_build :
    ¬∀ (m : Model) (p : ProgramId), m.Made → m.checkRefs p = .ok () →
      Faithful m p (build m p) := by
  intro h
  cases (h Clash.model ⟨0⟩ Clash.made rfl).find?_unknownId Clash.made.coherent rfl

end CallReach.CallGraph
