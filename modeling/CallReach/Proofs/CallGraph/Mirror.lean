import CallReach.Proofs.CallGraph.Growth
import CallReach.Proofs.Reachability.LeastClosure

/-!
# Call graphs that mirror their program

The call graph of a consistent program has a node for every function, and its
direct edges are the calls of the program, in the order of the call sites.
`Mirrors` says so, and `functionCallees_eq` draws the conclusion: the callees in
the graph are the static callees, with the same order and as often.

* Building.  `mirrors_build` follows the two passes of `build`: the first one
  makes the nodes, and the second one finds them all there.
* Annotating adds no direct edge, so `Mirrors.annotates` is short.
* Editing.  An edit that does not move the revision of the program changes
  nothing that the graph shows.

`Current` lists the graphs of a program at its present revision, and
`query_walk_eq_scan` says that walking such a graph is the same as scanning the
call sites.
-/

namespace CallReach.CallGraph

variable {g grown : CallGraph} {m : Model} {p : ProgramId} {f h : FunctionId}

/-! ## Nodes of functions -/

/-- The node of a function, where it has one. -/
def nodeAt (g : CallGraph) (m : Model) (f : FunctionId) : NodeId :=
  (g.nodeOf? m f).getD unknown

theorem nodeOf?_eq_some_iff {n : NodeId} :
    g.nodeOf? m f = some n ↔ g.find? (m.name f) = some n ∧ (g.node n).function = some f := by
  simp [nodeOf?, Option.filter_eq_some_iff]

theorem nodeAt_of_nodeOf? {n : NodeId} (h : g.nodeOf? m f = some n) : g.nodeAt m f = n := by
  rw [nodeAt, h, Option.getD_some]

/-- A node keeps its function while the graph grows. -/
theorem Grows.nodeOf? (hgrows : Grows g grown) (hg : g.Tidy) {n : NodeId}
    (hnode : g.nodeOf? m f = some n) : grown.nodeOf? m f = some n := by
  obtain ⟨hfind, hfunction⟩ := nodeOf?_eq_some_iff.1 hnode
  have hlt := hg.index_lt (hg.find?_eq_some_iff.1 hfind).1
  refine nodeOf?_eq_some_iff.2 ⟨hgrows.find? hfind, ?_⟩
  rw [hgrows.node n hlt]
  exact hfunction

/-- The edge of a call, if its callee is statically known. -/
def callEdge? (m : Model) (g : CallGraph) (f : FunctionId) (entry : SiteId × CallSite) :
    Option Edge :=
  match entry.2.callee with
  | .function callee => some ⟨g.nodeAt m f, g.nodeAt m callee, some entry.1, .direct⟩
  | _ => none

/-- The edges of the calls of a function. -/
def callEdges (m : Model) (g : CallGraph) (f : FunctionId) : List Edge :=
  (m.sites f).filterMap (callEdge? m g f)

/-- A graph of a program as it stands: every function has its node, and the
direct edges are the calls of the defined functions. -/
structure Mirrors (m : Model) (p : ProgramId) (g : CallGraph) : Prop where
  program : g.program = p
  revision : g.revision = (m.program p).revision
  tidy : g.Tidy
  seated : ∀ f ∈ m.members p, g.nodeOf? m f = some (g.nodeAt m f)
  direct : g.directEdges = (m.defined p).flatMap (callEdges m g)

/-! ## Callees in a graph -/

theorem callEdge?_caller {entry : SiteId × CallSite} {edge : Edge}
    (hedge : callEdge? m g f entry = some edge) : edge.caller = g.nodeAt m f := by
  unfold callEdge? at hedge
  split at hedge
  · cases hedge
    rfl
  · cases hedge

theorem callEdge?_resolution {entry : SiteId × CallSite} {edge : Edge}
    (hedge : callEdge? m g f entry = some edge) : edge.resolution = .direct := by
  unfold callEdge? at hedge
  split at hedge
  · cases hedge
    rfl
  · cases hedge

/-- The edge of a call depends on the nodes of its two functions only. -/
theorem callEdge?_congr {other : Model} {entry : SiteId × CallSite}
    (hcaller : grown.nodeAt other f = g.nodeAt m f)
    (hcallee : ∀ callee, entry.2.callee = .function callee →
      grown.nodeAt other callee = g.nodeAt m callee) :
    callEdge? other grown f entry = callEdge? m g f entry := by
  unfold callEdge?
  split
  · rename_i callee heq
    rw [hcaller, hcallee callee heq]
  · rfl

theorem staticSuccessors_eq (n : NodeId) :
    g.staticSuccessors n = (g.directEdges.filter (·.caller = n)).map (·.callee) := by
  rw [staticSuccessors, outEdges, directEdges, List.filter_filter, List.filter_filter]
  congr 2
  funext edge
  exact Bool.and_comm _ _

/-- A list without repetition picks one of its members. -/
theorem flatMap_ite_eq {α β : Type} [DecidableEq α] {l : List α} (hl : l.Nodup) {a : α}
    (ha : a ∈ l) (out : α → List β) : (l.flatMap fun b => if b = a then out b else []) = out a := by
  induction l with
  | nil => simp at ha
  | cons b rest ih =>
    obtain ⟨hb, hrest⟩ := List.nodup_cons.1 hl
    rw [List.flatMap_cons]
    rcases List.mem_cons.1 ha with heq | hmem
    · have hnil : (rest.flatMap fun c => if c = a then out c else []) = [] := by
        refine List.flatMap_eq_nil_iff.2 fun c hc => if_neg fun hca => hb ?_
        rwa [← heq, ← hca]
      rw [if_pos heq.symm, hnil, List.append_nil, heq]
    · have hne : b ≠ a := fun hba => hb (hba ▸ hmem)
      rw [if_neg hne, List.nil_append, ih hrest hmem]

/-- Two functions of the program have two nodes. -/
theorem Mirrors.eq_of_nodeAt_eq (hg : Mirrors m p g) (hf : f ∈ m.members p)
    (hh : h ∈ m.members p) (heq : g.nodeAt m f = g.nodeAt m h) : f = h := by
  have hfunction := (nodeOf?_eq_some_iff.1 (hg.seated f hf)).2
  rw [heq, (nodeOf?_eq_some_iff.1 (hg.seated h hh)).2] at hfunction
  exact (Option.some.inj hfunction).symm

/-- The edges that start at the node of a function are its calls. -/
theorem Mirrors.filter_directEdges (hm : m.Coherent) (hg : Mirrors m p g)
    (hf : f ∈ m.defined p) :
    g.directEdges.filter (·.caller = g.nodeAt m f) = callEdges m g f := by
  have hpart : ∀ h ∈ m.defined p, (callEdges m g h).filter (·.caller = g.nodeAt m f) =
      if h = f then callEdges m g h else [] := by
    intro h hh
    have hcaller : ∀ edge ∈ callEdges m g h, edge.caller = g.nodeAt m h := by
      intro edge hedge
      obtain ⟨entry, -, hentry⟩ := List.mem_filterMap.1 hedge
      exact callEdge?_caller hentry
    split
    · rename_i heq
      refine List.filter_eq_self.2 fun edge hedge => ?_
      simpa [heq] using hcaller edge hedge
    · rename_i hne
      refine List.filter_eq_nil_iff.2 fun edge hedge => ?_
      rw [hcaller edge hedge, decide_eq_true_iff]
      exact fun heq => hne (hg.eq_of_nodeAt_eq (Model.mem_defined_iff.1 hh).1
        (Model.mem_defined_iff.1 hf).1 heq)
  have hnodup : (m.defined p).Nodup := hm.nodup_members.filter _
  rw [hg.direct, List.filter_flatMap, ← flatMap_ite_eq hnodup hf (callEdges m g)]
  simp only [List.flatMap_def]
  rw [List.map_congr_left hpart]

/-- In a graph that mirrors a consistent program the callees of a function are
its static callees. -/
theorem Mirrors.functionCallees_eq (hm : m.Coherent) (hrefs : m.checkRefs p = .ok ())
    (hg : Mirrors m p g) (hf : f ∈ m.members p) (hdefined : m.isDeclaration f = false) :
    g.functionCallees m f = m.staticCallees f := by
  rw [functionCallees, hg.seated f hf]
  dsimp only
  rw [staticSuccessors_eq, hg.filter_directEdges hm (Model.mem_defined_iff.2 ⟨hf, hdefined⟩),
    callEdges, Model.staticCallees, List.map_filterMap, List.filterMap_filterMap]
  refine List.filterMap_congr fun entry hentry => ?_
  cases hcallee : entry.2.callee with
  | function callee =>
    have hmember : callee ∈ m.members p :=
      hm.mem_members_of_callee hrefs hf hentry hcallee
    have hfunction := (nodeOf?_eq_some_iff.1 (hg.seated callee hmember)).2
    simp [callEdge?, hcallee, hfunction]
  | absent => simp [callEdge?, hcallee]
  | other value => simp [callEdge?, hcallee]

/-! ## Building -/

/-- A new node stands for its function. -/
theorem nodeOf?_ensureNode (hnew : g.find? (m.name f) = none) :
    (g.ensureNode m f).1.nodeOf? m f = some ⟨g.nodes.size⟩ := by
  refine nodeOf?_eq_some_iff.2 ⟨?_, ?_⟩
  · rw [find?_ensureNode, ensureNode_of_none hnew]
  · rw [ensureNode_of_none hnew]
    simp [node, Array.getD_eq_getD_getElem?]

/-- The first pass adds nodes and no edges. -/
theorem grows_foldl_ensureNode (functions : List FunctionId) (g : CallGraph) :
    Grows g (functions.foldl (fun g f => (g.ensureNode m f).1) g) ∧
      (functions.foldl (fun g f => (g.ensureNode m f).1) g).edges = g.edges := by
  induction functions generalizing g with
  | nil => exact ⟨.refl g, rfl⟩
  | cons f rest ih =>
    obtain ⟨hgrows, hedges⟩ := ih (g.ensureNode m f).1
    exact ⟨grows_ensureNode.trans hgrows, hedges.trans edges_ensureNode⟩

/-- The first pass gives a function its node when their names are distinct and
nothing is under its name before. -/
theorem nodeOf?_foldl_ensureNode {functions : List FunctionId} (hg : g.Tidy)
    (hnames : (functions.map m.name).Nodup) :
    ∀ f ∈ functions, g.find? (m.name f) = none → ∃ n,
      (functions.foldl (fun g f => (g.ensureNode m f).1) g).nodeOf? m f = some n := by
  induction functions generalizing g with
  | nil => simp
  | cons first rest ih =>
    rw [List.map_cons, List.nodup_cons] at hnames
    intro f hf hnew
    rcases List.mem_cons.1 hf with rfl | hmem
    · have hgrows := (grows_foldl_ensureNode (m := m) rest (g.ensureNode m f).1).1
      exact ⟨_, hgrows.nodeOf? (hg.ensureNode m f) (nodeOf?_ensureNode hnew)⟩
    · refine ih (hg.ensureNode m first) hnames.2 f hmem ?_
      rw [find?_ensureNode_of_ne fun heq => hnames.1 (heq ▸ List.mem_map_of_mem hmem)]
      exact hnew

/-- A graph with more edges. -/
def withEdges (g : CallGraph) (edges : List Edge) : CallGraph :=
  { g with edges := g.edges ++ edges.toArray }

theorem withEdges_withEdges (edges more : List Edge) :
    (g.withEdges edges).withEdges more = g.withEdges (edges ++ more) := by
  simp [withEdges]

theorem withEdges_nil : g.withEdges [] = g := by
  simp [withEdges]

/-- A call site adds the edge of its call when there is a node under the name of
its callee. -/
theorem connectSite_eq (f : FunctionId) {entry : SiteId × CallSite}
    (hcallee : ∀ callee, entry.2.callee = .function callee →
      g.find? (m.name callee) = some (g.nodeAt m callee)) :
    connectSite m (g.nodeAt m f) g entry = g.withEdges (callEdge? m g f entry).toList := by
  cases heq : entry.2.callee with
  | function callee =>
    simp [connectSite, callEdge?, heq, ensureNode_of_find? (hcallee callee heq), connect,
      withEdges]
  | absent => simp [connectSite, callEdge?, heq, withEdges_nil]
  | other value => simp [connectSite, callEdge?, heq, withEdges_nil]

/-- A function adds the edges of its calls when there are nodes under its name
and those of its callees. -/
theorem connectFunction_eq (hf : g.find? (m.name f) = some (g.nodeAt m f))
    (hcallees : ∀ entry ∈ m.sites f, ∀ callee, entry.2.callee = .function callee →
      g.find? (m.name callee) = some (g.nodeAt m callee)) :
    connectFunction m g f = g.withEdges (callEdges m g f) := by
  have hfold : ∀ (sites : List (SiteId × CallSite)) (edges : List Edge),
      (∀ entry ∈ sites, ∀ callee, entry.2.callee = .function callee →
        g.find? (m.name callee) = some (g.nodeAt m callee)) →
      sites.foldl (connectSite m (g.nodeAt m f)) (g.withEdges edges) =
        g.withEdges (edges ++ sites.filterMap (callEdge? m g f)) := by
    intro sites
    induction sites with
    | nil =>
      intro edges _
      simp
    | cons entry rest ih =>
      intro edges hsites
      have hstep : connectSite m (g.nodeAt m f) (g.withEdges edges) entry =
          (g.withEdges edges).withEdges (callEdge? m g f entry).toList :=
        connectSite_eq (g := g.withEdges edges) f (hsites entry List.mem_cons_self)
      rw [List.foldl_cons, hstep, withEdges_withEdges,
        ih _ fun other hother => hsites other (List.mem_cons_of_mem _ hother)]
      cases hedge : callEdge? m g f entry <;> simp [hedge]
  have hstart := hfold (m.sites f) [] hcallees
  rw [withEdges_nil, List.nil_append] at hstart
  rw [connectFunction, ensureNode_of_find? hf]
  exact hstart

/-- The second pass adds the calls of every function in order. -/
theorem foldl_connectFunction_eq {functions : List FunctionId}
    (hseated : ∀ f ∈ functions, g.find? (m.name f) = some (g.nodeAt m f))
    (hcallees : ∀ f ∈ functions, ∀ entry ∈ m.sites f, ∀ callee,
      entry.2.callee = .function callee → g.find? (m.name callee) = some (g.nodeAt m callee)) :
    functions.foldl (connectFunction m) g =
      g.withEdges (functions.flatMap (callEdges m g)) := by
  have hfold : ∀ (rest : List FunctionId) (edges : List Edge), rest ⊆ functions →
      rest.foldl (connectFunction m) (g.withEdges edges) =
        g.withEdges (edges ++ rest.flatMap (callEdges m g)) := by
    intro rest
    induction rest with
    | nil =>
      intro edges _
      simp
    | cons f rest ih =>
      intro edges hrest
      obtain ⟨hf, hlater⟩ := List.cons_subset.1 hrest
      have hstep : connectFunction m (g.withEdges edges) f =
          (g.withEdges edges).withEdges (callEdges m g f) :=
        connectFunction_eq (g := g.withEdges edges) (hseated f hf) (hcallees f hf)
      rw [List.foldl_cons, hstep, withEdges_withEdges, ih _ hlater, List.flatMap_cons,
        List.append_assoc]
  have hstart := hfold functions [] (List.Subset.refl _)
  rwa [withEdges_nil, List.nil_append] at hstart

/-- The graph of a program before its edges are added. -/
def seats (m : Model) (p : ProgramId) : CallGraph :=
  (m.members p).foldl (fun g f => (g.ensureNode m f).1) (start m p)

theorem grows_seats (m : Model) (p : ProgramId) : Grows (start m p) (seats m p) :=
  (grows_foldl_ensureNode (m.members p) (start m p)).1

/-- The node for unknown targets stays what it is. -/
theorem node_seats_unknown : (seats m p).node unknown = ⟨unknownId, .unknown, none⟩ :=
  (grows_seats m p).node unknown (by simp [start, unknown])

theorem find?_seats_unknownId : (seats m p).find? unknownId = some unknown :=
  (grows_seats m p).find? (by simp [start, find?])

theorem find?_start_eq_none_iff {id : String} :
    (start m p).find? id = none ↔ id ≠ unknownId := by
  simp [start, find?, List.lookup_eq_none_iff]

/-- A function has its node, unless its name is the id of the node for unknown
targets. -/
theorem nodeOf?_seats (hm : m.Coherent) (hf : f ∈ m.members p) (hname : m.name f ≠ unknownId) :
    (seats m p).nodeOf? m f = some ((seats m p).nodeAt m f) := by
  have hnames : ((m.members p).map m.name).Nodup := by
    rw [hm.map_name_members]
    exact hm.nodup_names p
  obtain ⟨n, hn⟩ :=
    nodeOf?_foldl_ensureNode (Tidy.start m p) hnames f hf (find?_start_eq_none_iff.2 hname)
  rw [nodeAt, seats, hn, Option.getD_some]

/-- A function with that name has none, and the one for unknown targets takes
its place. -/
theorem nodeOf?_seats_eq_none (hname : m.name f = unknownId) :
    (seats m p).nodeOf? m f = none := by
  simp [nodeOf?, hname, find?_seats_unknownId, node_seats_unknown]

theorem find?_seats (hm : m.Coherent) (hf : f ∈ m.members p) :
    (seats m p).find? (m.name f) = some ((seats m p).nodeAt m f) := by
  by_cases hname : m.name f = unknownId
  · rw [nodeAt, nodeOf?_seats_eq_none hname, hname]
    exact find?_seats_unknownId
  · exact (nodeOf?_eq_some_iff.1 (nodeOf?_seats hm hf hname)).1

/-- The second pass adds the edges of the calls and no nodes. -/
theorem build_eq (hm : m.Coherent) (hrefs : m.checkRefs p = .ok ()) :
    build m p = (seats m p).withEdges ((m.defined p).flatMap (callEdges m (seats m p))) := by
  refine foldl_connectFunction_eq (g := seats m p) ?_ ?_
  · intro f hf
    exact find?_seats hm (Model.mem_defined_iff.1 hf).1
  · intro f hf entry hentry callee hcallee
    have hmember := (Model.mem_defined_iff.1 hf).1
    exact find?_seats hm (hm.mem_members_of_callee hrefs hmember hentry hcallee)

/-- The edges of the call graph of a consistent program are the calls, whatever
the names of the functions. -/
theorem edges_build (hm : m.Coherent) (hrefs : m.checkRefs p = .ok ()) :
    (build m p).edges.toList = (m.defined p).flatMap (callEdges m (build m p)) := by
  have hempty : (seats m p).edges.toList = [] := by
    rw [seats, (grows_foldl_ensureNode (m.members p) (start m p)).2]
    rfl
  rw [build_eq hm hrefs, withEdges, Array.toList_append, hempty, List.nil_append]
  rfl

/-- The call graph of a consistent program mirrors it, unless a function has
the id of the node for unknown targets as its name. -/
theorem mirrors_build (hm : m.Coherent) (hrefs : m.checkRefs p = .ok ())
    (hunknown : m.find? p unknownId = none) : Mirrors m p (build m p) := by
  have hseated : ∀ f ∈ m.members p,
      (seats m p).nodeOf? m f = some ((seats m p).nodeAt m f) := by
    intro f hf
    exact nodeOf?_seats hm hf (hm.find?_eq_none_iff.1 hunknown f hf)
  have hdirect : (build m p).directEdges = (m.defined p).flatMap (callEdges m (build m p)) := by
    rw [directEdges, edges_build hm hrefs, List.filter_eq_self]
    intro edge hedge
    obtain ⟨f, -, hcall⟩ := List.mem_flatMap.1 hedge
    obtain ⟨entry, -, hentry⟩ := List.mem_filterMap.1 hcall
    simpa using callEdge?_resolution hentry
  have htidy := tidy_build m p
  have hgrows := grows_seats m p
  rw [build_eq hm hrefs] at hdirect htidy ⊢
  exact ⟨hgrows.program, hgrows.revision, htidy, hseated, hdirect⟩

/-! ## Annotating and editing -/

/-- The edges of a function depend on its call sites and on the nodes of the
program's functions only. -/
theorem callEdges_congr {other : Model} (hm : m.Coherent) (hrefs : m.checkRefs p = .ok ())
    (hnodeAt : ∀ f ∈ m.members p, grown.nodeAt other f = g.nodeAt m f) (hf : f ∈ m.members p)
    (hsites : other.sites f = m.sites f) : callEdges other grown f = callEdges m g f := by
  rw [callEdges, hsites, callEdges]
  refine List.filterMap_congr fun entry hentry => callEdge?_congr (hnodeAt f hf) ?_
  intro callee hcallee
  exact hnodeAt callee (hm.mem_members_of_callee hrefs hf hentry hcallee)

/-- A graph that is annotated still mirrors its program. -/
theorem Mirrors.annotates (hm : m.Coherent) (hrefs : m.checkRefs p = .ok ())
    (hg : Mirrors m p g) (hgrown : Annotates g grown) : Mirrors m p grown := by
  have hnode : ∀ f ∈ m.members p, grown.nodeOf? m f = some (g.nodeAt m f) := fun f hf =>
    hgrown.nodeOf? hg.tidy (hg.seated f hf)
  have hnodeAt : ∀ f ∈ m.members p, grown.nodeAt m f = g.nodeAt m f := fun f hf =>
    nodeAt_of_nodeOf? (hnode f hf)
  refine ⟨hgrown.program.trans hg.program, hgrown.revision.trans hg.revision,
    hgrown.tidy hg.tidy, fun f hf => ?_, ?_⟩
  · rw [hnodeAt f hf]
    exact hnode f hf
  · rw [hgrown.direct, hg.direct]
    refine List.flatMap_congr fun f hf => Eq.symm ?_
    exact callEdges_congr hm hrefs hnodeAt (Model.mem_defined_iff.1 hf).1 rfl

/-- A graph mirrors a program in every model with the same program at the same
revision. -/
theorem Mirrors.agree {other : Model} (hm : m.Coherent) (hrefs : m.checkRefs p = .ok ())
    (hg : Mirrors m p g) (hagree : Model.Agree p m other)
    (hrevision : (other.program p).revision = (m.program p).revision) : Mirrors other p g := by
  have hnode : ∀ f ∈ m.members p, g.nodeOf? other f = g.nodeOf? m f := by
    intro f hf
    rw [nodeOf?, hagree.name_eq hf, nodeOf?]
  have hnodeAt : ∀ f ∈ m.members p, g.nodeAt other f = g.nodeAt m f := by
    intro f hf
    rw [nodeAt, hnode f hf, nodeAt]
  refine ⟨hg.program, hg.revision.trans hrevision.symm, hg.tidy, fun f hf => ?_, ?_⟩
  · rw [hagree.members_eq] at hf
    rw [hnode f hf, hnodeAt f hf]
    exact hg.seated f hf
  · rw [hg.direct, hagree.defined_eq]
    refine List.flatMap_congr fun f hf => Eq.symm ?_
    have hmember := (Model.mem_defined_iff.1 hf).1
    exact callEdges_congr hm hrefs hnodeAt hmember (hagree.sites_eq hmember)

/-- The graphs of a program at its present revision: it was built, it may have
been annotated with any indexes, and no edit has moved the revision since. -/
inductive Current (p : ProgramId) : Model → CallGraph → Prop where
  | built {m : Model} (hmade : m.Made) : Current p m (build m p)
  | annotated {m : Model} {g : CallGraph} (before : Current p m g) (index : TypeIndex) :
      Current p m (annotate m index g).graph
  | edited {m edited : Model} {g : CallGraph} {e : Edit} (before : Current p m g)
      (hscope : e.InScope m) (happly : e.apply m = .ok edited)
      (hrevision : (edited.program p).revision = (m.program p).revision) : Current p edited g

theorem Current.made (h : Current p m g) : m.Made := by
  induction h with
  | built hmade => exact hmade
  | annotated _ _ ih => exact ih
  | edited _ hscope happly _ ih => exact ih.edit hscope happly

/-- A graph of a consistent program at its present revision mirrors the
program. -/
theorem Current.mirrors (h : Current p m g) (hrefs : m.checkRefs p = .ok ())
    (hunknown : m.find? p unknownId = none) : Mirrors m p g := by
  induction h with
  | built hmade => exact mirrors_build hmade.coherent hrefs hunknown
  | annotated before index ih =>
    have hg := ih hrefs hunknown
    exact hg.annotates before.made.coherent hrefs (annotates_annotate hg.tidy _ index)
  | @edited m edited g e before hscope happly hrevision ih =>
    have hm := before.made.coherent
    have heffect := Model.effect_of_apply hscope happly
    have hagree := hm.agree_of_effect heffect hrevision
    -- The program was consistent before the edit as well.
    have hrefs' := hagree.symm.checkRefs_eq_ok (hm.effect heffect) hm hrefs
    have hunknown' : m.find? p unknownId = none := by rw [← hagree.find?_eq, hunknown]
    exact (ih hrefs' hunknown').agree hm hrefs' hagree hrevision

end CallReach.CallGraph

namespace CallReach

/-! ## Walking and scanning -/

section Query

variable {m : Model} {p : ProgramId} {scope other : Scope} {e : FunctionId}

/-- Scopes that see the same calls inside a program have the same closures. -/
theorem closureOf_congr (hm : m.Coherent) (hrefs : m.checkRefs p = .ok ())
    (hscope : Closure.Follows m p scope) (hsame : Closure.SameCalls m p scope other)
    (he : e ∈ m.members p) :
    directlyReachable m other e = directlyReachable m scope e ∧
      closureOf m other e = closureOf m scope e := by
  have hstack : [e] ⊆ m.members p := by simpa using he
  have hdirect : directlyReachable m other e = directlyReachable m scope e :=
    walk_congr hscope.within hsame.callees hstack
  refine ⟨hdirect, ?_⟩
  rw [closureOf, hdirect, closureOf]
  refine Closure.run_congr hm hrefs hscope hsame fun f hf => ?_
  exact walk_subset_members hscope.within hstack (Model.mem_sorted.1 hf)

theorem Model.findWide?_eq_some_iff {name : Text.Wide} :
    m.findWide? p name = some e ↔ ∃ text, name = .whole text ∧ m.find? p text = some e := by
  cases name <;> simp [findWide?]

theorem mem_members_of_resolve {entry : Entry} (hm : m.Coherent)
    (h : entry.resolve m p = .ok e) : e ∈ m.members p := by
  cases entry with
  | named name =>
    cases hfind : m.findWide? p name with
    | none => simp [Entry.resolve, hfind, bind, Except.bind] at h
    | some f =>
      simp only [Entry.resolve, hfind, bind, Except.bind] at h
      split at h
      · cases h
      · cases h
        obtain ⟨text, -, hfind⟩ := Model.findWide?_eq_some_iff.1 hfind
        exact Model.mem_members_of_find? hfind
  | function f =>
    cases howns : m.owns p f with
    | false => simp [Entry.resolve, howns, bind, Except.bind] at h
    | true =>
      simp only [Entry.resolve, howns, if_true, bind, Except.bind] at h
      split at h
      · cases h
      · cases h
        exact hm.owns_iff.1 howns

theorem answer_congr (hm : m.Coherent) (hrefs : m.checkRefs p = .ok ())
    (hscope : Closure.Follows m p scope) (hsame : Closure.SameCalls m p scope other)
    (entry : Entry) : answer m p other entry = answer m p scope entry := by
  unfold answer
  cases hresolve : entry.resolve m p with
  | error fault => rfl
  | ok e =>
    obtain ⟨hdirect, hclosure⟩ :=
      closureOf_congr hm hrefs hscope hsame (mem_members_of_resolve hm hresolve)
    simp only [hdirect, hclosure]

end Query

namespace Analysis

variable {a : Analysis} {w : Workspace}

/-- The graph that a walk uses mirrors the program, whether it is built now or
was given before. -/
theorem refresh_mirrors (hmade : w.model.Made) (hvalid : w.model.checkRefs a.program = .ok ())
    (hunknown : w.model.find? a.program CallGraph.unknownId = none) (hwalk : a.usesGraph = true)
    (hgraph : ∀ g ∈ a.graph, CallGraph.Current a.program w.model (w.graph g)) :
    ∃ g, (a.refresh w).value = some g ∧ (a.refresh w).workspace.model = w.model ∧
      CallGraph.Mirrors w.model a.program ((a.refresh w).workspace.graph g) := by
  cases hgiven : a.graph with
  | none =>
    have hfresh : a.refresh w = ⟨(w.buildGraph a.program).1,
        { a with graph := some (w.buildGraph a.program).2 }, [],
        some (w.buildGraph a.program).2⟩ := by
      simp [refresh, hwalk, hgiven]
    rw [hfresh]
    refine ⟨_, rfl, rfl, ?_⟩
    have hbuilt : (w.buildGraph a.program).1.graph (w.buildGraph a.program).2 =
        CallGraph.build w.model a.program := by
      simp [Workspace.buildGraph, Workspace.graph]
    rw [hbuilt]
    exact CallGraph.mirrors_build hmade.coherent hvalid hunknown
  | some g =>
    have hmirrors := (hgraph g hgiven).mirrors hvalid hunknown
    have hcurrent : (w.graph g).isOutdated w.model = false := by
      simp [CallGraph.isOutdated, hmirrors.program, hmirrors.revision]
    have hfresh : a.refresh w = ⟨w, a, [], some g⟩ := by
      simp [refresh, hwalk, hgiven, hcurrent]
    rw [hfresh]
    exact ⟨g, rfl, rfl, hmirrors⟩

/-- Walking the call graph of a consistent program has the same outcome as
scanning its call sites, from every entry.  The graph is built for the query or
is a given one at the present revision. -/
theorem query_walk_eq_scan {p : ProgramId} {graph : Option GraphId} (callbacks : Bool)
    (entry : Entry) (hmade : w.model.Made) (hvalid : w.model.checkRefs p = .ok ())
    (hunknown : w.model.find? p CallGraph.unknownId = none)
    (hgraph : ∀ g ∈ graph, CallGraph.Current p w.model (w.graph g)) :
    ∃ walking scanning, create w p graph true callbacks = .ok walking ∧
      create w p none false callbacks = .ok scanning ∧
      (walking.query w entry).value = (scanning.query w entry).value := by
  refine ⟨⟨p, graph, true, callbacks⟩, ⟨p, none, false, callbacks⟩, ?_, rfl, ?_⟩
  · cases graph with
    | none => rfl
    | some g => simp [create, ((hgraph g rfl).mirrors hvalid hunknown).program]
  · have hm := hmade.coherent
    obtain ⟨g, hvalue, hmodel, hmirrors⟩ :=
      refresh_mirrors (a := ⟨p, graph, true, callbacks⟩) hmade hvalid hunknown rfl hgraph
    have hsame : Closure.SameCalls w.model p (scanScope w.model p callbacks)
        ⟨((⟨p, graph, true, callbacks⟩ : Analysis).refresh w).workspace.callees (some g),
          TypeIndex.ofProgram w.model p, callbacks⟩ := by
      refine ⟨rfl, rfl, fun f hf hdefined => ?_⟩
      simp only [Workspace.callees, hmodel]
      exact hmirrors.functionCallees_eq hm hvalid hf hdefined
    rw [query_value, query_value_of_scan rfl, hvalue]
    exact answer_congr hm hvalid (hm.follows_scanScope hvalid callbacks) hsame entry

/-- In the small program a graph that was annotated twice gives the outcome of
the scan, also where that is a malformed call site. -/
theorem query_walk_eq_scan_relay :
    let annotated := (CallGraph.annotate Model.Relay.model ⟨[]⟩
      (CallGraph.annotate Model.Relay.model (TypeIndex.ofProgram Model.Relay.model ⟨0⟩)
        (CallGraph.build Model.Relay.model ⟨0⟩)).graph).graph
    ∃ walking scanning,
      create ⟨Model.Relay.model, #[annotated]⟩ ⟨0⟩ (some ⟨0⟩) true true = .ok walking ∧
      create ⟨Model.Relay.model, #[annotated]⟩ ⟨0⟩ none false true = .ok scanning ∧
      (walking.query ⟨Model.Relay.model, #[annotated]⟩ (.named "idle")).value =
        (scanning.query ⟨Model.Relay.model, #[annotated]⟩ (.named "idle")).value := by
  intro annotated
  refine query_walk_eq_scan (w := ⟨Model.Relay.model, #[annotated]⟩) true (.named "idle")
    Model.Relay.made rfl rfl fun g hg => ?_
  obtain rfl : ⟨0⟩ = g := by simpa using hg
  exact ((CallGraph.Current.built Model.Relay.made).annotated _).annotated _

end Analysis

end CallReach
