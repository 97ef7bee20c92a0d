import CallReach.Proofs.CallGraph.Mirror
import CallReach.Proofs.Model.References

/-!
# What a built graph depends on

Building looks at the functions of the program and at the callees of their call
sites, those that the program mentions, and of each of them only at its name and
at whether it is a declaration.

* `build_induction` packs the two passes of `build`: a property of graphs that
  every new node and every direct edge keep holds of the graph that is built.
* `build_congr`: two models that agree on what a program mentions build the same
  graph.  A graph that is not outdated is therefore the one that would be built
  now, with annotations.
* `Annotates.functionCallees_eq`: annotations are not seen by a walk, whatever
  nodes they have added.
-/

namespace CallReach

namespace CallGraph

variable {g grown : CallGraph} {m other : Model} {p : ProgramId} {f : FunctionId}

/-! ## One induction for both passes -/

/-- What the empty graph has, and every new node of a function that the program
mentions and every new direct edge keep, the graph of the program has. -/
theorem build_induction {P : CallGraph → Prop} (hstart : P (start m p))
    (hnode : ∀ g f, m.Mentions p f → P g → P (g.ensureNode m f).1)
    (hedge : ∀ g edge, edge.resolution = .direct → P g → P (g.connect edge)) :
    P (build m p) := by
  have hnodes : P ((m.members p).foldl (fun g f => (g.ensureNode m f).1) (start m p)) :=
    List.foldlRecOn _ _ hstart fun g hg f hf => hnode g f (.inl hf) hg
  refine List.foldlRecOn _ _ hnodes fun g hg f hf => ?_
  have hmember := (Model.mem_defined_iff.1 hf).1
  refine List.foldlRecOn _ _ (hnode g f (.inl hmember) hg) fun g hg entry hentry => ?_
  unfold connectSite
  split
  · rename_i callee hcallee
    exact hedge _ _ rfl (hnode g callee (.inr ⟨f, hmember, entry, hentry, hcallee⟩) hg)
  · exact hg

/-! ## Rebuilding -/

theorem ensureNode_congr (hname : other.name f = m.name f)
    (hdeclared : other.isDeclaration f = m.isDeclaration f) :
    g.ensureNode other f = g.ensureNode m f := by
  rw [ensureNode, hname, hdeclared, ensureNode]

/-- Two models with the same program at the same revision build the same graph,
as soon as the mentioned functions have the same names and the same of them are
declarations. -/
theorem build_congr (hagree : Model.Agree p m other)
    (hrevision : (other.program p).revision = (m.program p).revision)
    (hmentions : ∀ f, m.Mentions p f →
      other.name f = m.name f ∧ other.isDeclaration f = m.isDeclaration f) :
    build other p = build m p := by
  have hensure : ∀ (g : CallGraph) (f : FunctionId), m.Mentions p f →
      g.ensureNode other f = g.ensureNode m f := fun g f hf =>
    ensureNode_congr (hmentions f hf).1 (hmentions f hf).2
  have hstart : start other p = start m p := by rw [start, hrevision, start]
  have hnodes : (m.members p).foldl (fun g f => (g.ensureNode other f).1) (start m p) =
      (m.members p).foldl (fun g f => (g.ensureNode m f).1) (start m p) :=
    List.foldl_ext _ _ _ fun g f hf => by rw [hensure g f (.inl hf)]
  rw [build, hagree.members_eq, hagree.defined_eq, hstart, hnodes, build]
  refine List.foldl_ext _ _ _ fun g f hf => ?_
  have hmember := (Model.mem_defined_iff.1 hf).1
  rw [connectFunction, hensure g f (.inl hmember), hagree.sites_eq hmember, connectFunction]
  refine List.foldl_ext _ _ _ fun g entry hentry => ?_
  unfold connectSite
  split
  · rename_i callee hcallee
    rw [hensure g callee (.inr ⟨f, hmember, entry, hentry, hcallee⟩)]
  · rfl

/-- A graph of a consistent program at its present revision is the one that
would be built now, with annotations. -/
theorem Current.annotates (h : Current p m g) (hrefs : m.checkRefs p = .ok ()) :
    Annotates (build m p) g := by
  induction h with
  | built hmade => exact .refl _
  | annotated before index ih =>
    have hg := ih hrefs
    exact hg.trans (annotates_annotate (hg.tidy (tidy_build _ p)) _ index)
  | @edited m edited g e before hscope happly hrevision ih =>
    have hm := before.made.coherent
    have heffect := Model.effect_of_apply hscope happly
    have hagree := hm.agree_of_effect heffect hrevision
    have hrefs' := hagree.symm.checkRefs_eq_ok (hm.effect heffect) hm hrefs
    rw [build_congr hagree hrevision fun f hf => ?_]
    · exact ih hrefs'
    · have hmember := hm.mem_members_of_mentions hrefs' hf
      exact ⟨hagree.name_eq hmember, hagree.isDeclaration_eq hmember⟩

/-! ## Annotations and walks -/

/-- A walk sees the same callees in a graph before and after it was annotated. -/
theorem Annotates.functionCallees_eq (hgrown : Annotates g grown) (hg : g.Tidy) (m : Model)
    (f : FunctionId) : grown.functionCallees m f = g.functionCallees m f := by
  have hsuccessors (n : NodeId) : grown.staticSuccessors n = g.staticSuccessors n := by
    rw [staticSuccessors_eq, hgrown.direct, staticSuccessors_eq]
  cases hnode : g.nodeOf? m f with
  | some n =>
    rw [functionCallees, hgrown.nodeOf? hg hnode, functionCallees, hnode]
    dsimp only
    rw [hsuccessors]
    refine List.filterMap_congr fun callee hcallee => ?_
    obtain ⟨edge, hedge, rfl⟩ := List.mem_map.1 hcallee
    have hmem := hg.callee_mem edge (List.mem_of_mem_filter (List.mem_of_mem_filter hedge))
    rw [hgrown.node _ (hg.index_lt hmem)]
  | none =>
    rw [functionCallees, functionCallees, hnode]
    cases hgrownNode : grown.nodeOf? m f with
    | none => rfl
    | some n =>
      -- The node is a new one, and every direct edge starts at an old one.
      have hnot : n ∉ g.members := by
        intro hmem
        obtain ⟨hfind, hfunction⟩ := nodeOf?_eq_some_iff.1 hgrownNode
        have hid := ((hgrown.tidy hg).find?_eq_some_iff.1 hfind).2
        rw [idOf, hgrown.node n (hg.index_lt hmem)] at hid
        rw [hgrown.node n (hg.index_lt hmem)] at hfunction
        have hold := nodeOf?_eq_some_iff.2 ⟨hg.find?_eq_some_iff.2 ⟨hmem, hid⟩, hfunction⟩
        rw [hnode] at hold
        cases hold
      have hnone : g.staticSuccessors n = [] := by
        rw [staticSuccessors_eq, List.map_eq_nil_iff, List.filter_eq_nil_iff]
        intro edge hedge
        have hmem := hg.caller_mem edge (List.mem_of_mem_filter hedge)
        rw [decide_eq_true_iff]
        exact fun heq => hnot (heq ▸ hmem)
      simp [hsuccessors, hnone]

/-! ## Nodes and edges of a built graph -/

/-- The kind of the node of a function, and of the node of none. -/
def roleOf (m : Model) : Option FunctionId → NodeRole
  | some f => if m.isDeclaration f then .external else .function
  | none => .unknown

/-- A graph without annotations: its nodes are of the functions that a program
mentions, each with the kind of its function, and its edges are direct. -/
structure Plain (m : Model) (p : ProgramId) (g : CallGraph) : Prop where
  grows : Grows (start m p) g
  mentions : ∀ n f, (g.node n).function = some f → m.Mentions p f
  kind : ∀ n, (g.node n).kind = roleOf m (g.node n).function
  direct : ∀ edge ∈ g.edges.toList, edge.resolution = .direct

/-- After a node was asked for, every node is an old one or the new one. -/
theorem node_ensureNode_cases (n : NodeId) :
    (g.ensureNode m f).1.node n = g.node n ∨
      (g.ensureNode m f).1.node n = ⟨m.name f, roleOf m (some f), some f⟩ := by
  cases hfind : g.find? (m.name f) with
  | some k => exact .inl (by rw [ensureNode_of_find? hfind])
  | none =>
    rw [ensureNode_of_none hfind]
    by_cases hlast : n.index = g.nodes.size
    · exact .inr (by simp [node, hlast, roleOf])
    · exact .inl (by simp [node, Array.getD_eq_getD_getElem?, Array.getElem?_push, hlast])

theorem node_start (n : NodeId) :
    ((start m p).node n).kind = .unknown ∧ ((start m p).node n).function = none := by
  simp only [start, node, Array.getD_eq_getD_getElem?, List.getElem?_toArray,
    List.getElem?_singleton]
  split <;> exact ⟨rfl, rfl⟩

/-- The graph of a program is without annotations. -/
theorem plain_build (m : Model) (p : ProgramId) : Plain m p (build m p) := by
  refine build_induction (P := Plain m p) ?_ ?_ ?_
  · refine ⟨.refl _, fun n f hf => ?_, fun n => ?_, by simp [start]⟩
    · simp [(node_start n).2] at hf
    · rw [(node_start n).1, (node_start n).2, roleOf]
  · intro g f hf hg
    refine ⟨hg.grows.trans grows_ensureNode, fun n h hh => ?_, fun n => ?_, ?_⟩
    · rcases node_ensureNode_cases (g := g) (m := m) (f := f) n with hold | hnew
      · exact hg.mentions n h (hold ▸ hh)
      · rw [hnew] at hh
        exact Option.some.inj hh ▸ hf
    · rcases node_ensureNode_cases (g := g) (m := m) (f := f) n with hold | hnew
      · rw [hold]
        exact hg.kind n
      · rw [hnew]
    · rw [edges_ensureNode]
      exact hg.direct
  · intro g edge hedge hg
    refine ⟨hg.grows.trans (grows_connect edge), hg.mentions, hg.kind, fun other hother => ?_⟩
    simp only [connect, Array.toList_push, List.mem_append, List.mem_singleton] at hother
    rcases hother with hold | rfl
    · exact hg.direct other hold
    · exact hedge

/-- The callees in the graph of a program are functions that the program
mentions. -/
theorem mentions_of_mem_functionCallees {caller : FunctionId}
    (h : f ∈ (build m p).functionCallees m caller) : m.Mentions p f := by
  unfold functionCallees at h
  split at h
  · obtain ⟨n, -, hn⟩ := List.mem_filterMap.1 h
    exact (plain_build m p).mentions n f hn
  · simp at h

end CallGraph

end CallReach
