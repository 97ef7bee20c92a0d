import CallReach.Proofs.CallGraph.Annotated
import CallReach.Proofs.CallGraph.Components

/-!
# Lookups that never fail

Building, annotating and measuring the graph of a program look nodes up: that of
each caller while its calls are added, that of each caller again while its
candidates are added, and the nodes and numbers of the search for components.
Each of these lookups finds something, in every program: names may clash, call
sites may be malformed or refer to functions of other programs.

`lookupsSucceed` gathers them.  The reason is the same for the first two: the
node of a function is made before it is looked up, and graphs only grow.  The
search keeps `Components.Invariant`.
-/

namespace CallReach.CallGraph

variable {g : CallGraph} {m : Model} {p : ProgramId} {f : FunctionId} {index : TypeIndex}

/-! ## Callers -/

theorem grows_connectFunction (m : Model) (g : CallGraph) (f : FunctionId) :
    Grows g (connectFunction m g f) := by
  refine (grows_ensureNode (m := m) (f := f)).trans ?_
  refine List.foldlRecOn (motive := Grows (g.ensureNode m f).1) _ _ (.refl _)
    fun grown hgrown entry _ => ?_
  unfold connectSite
  split
  · exact (hgrown.trans grows_ensureNode).trans (grows_connect _)
  · exact hgrown

/-- The first pass makes a node under the name of every function. -/
theorem exists_find?_seats (hf : f ∈ m.members p) :
    ∃ n, (seats m p).find? (m.name f) = some n := by
  obtain ⟨before, after, hsplit⟩ := List.append_of_mem hf
  rw [seats, hsplit, List.foldl_append, List.foldl_cons]
  exact ⟨_, (grows_foldl_ensureNode after _).1.find? find?_ensureNode⟩

/-- The node of a function is there at every moment of the second pass. -/
theorem exists_find?_foldl_connectFunction (hf : f ∈ m.members p) (functions : List FunctionId) :
    ∃ n, (functions.foldl (connectFunction m) (seats m p)).find? (m.name f) = some n := by
  obtain ⟨n, hn⟩ := exists_find?_seats hf
  have hgrows : Grows (seats m p) (functions.foldl (connectFunction m) (seats m p)) :=
    List.foldlRecOn _ _ (.refl _) fun grown hgrown f _ =>
      hgrown.trans (grows_connectFunction m grown f)
  exact ⟨n, hgrows.find? hn⟩

/-- No caller is missing where all of them have nodes. -/
theorem missing_annotateSites (hg : g.Tidy) {sites : List (SiteId × CallSite)}
    (hcallers : ∀ entry ∈ sites, ∃ n, g.find? (m.name entry.1.block.function) = some n) :
    (annotateSites m index g sites).missing = none := by
  induction sites generalizing g with
  | nil => rfl
  | cons entry rest ih =>
    obtain ⟨⟨caller, hcaller⟩, hrest⟩ := List.forall_mem_cons.1 hcallers
    obtain ⟨id, site⟩ := entry
    rw [annotateSites]
    split
    · exact ih hg hrest
    · simp only [hcaller]
      have hmember := ((hg.find?_eq_some_iff).1 hcaller).1
      have hannotates := annotates_annotateSite hg hmember m index id site
      refine ih (hannotates.tidy hg) fun entry hentry => ?_
      obtain ⟨n, hn⟩ := hrest entry hentry
      exact ⟨n, hannotates.find? hn⟩

theorem missing_buildAnnotated (m : Model) (p : ProgramId) :
    (buildAnnotated m p).missing = none := by
  refine missing_annotateSites (tidy_build m p) fun entry hentry => ?_
  rw [(plain_build m p).grows.program] at hentry
  obtain ⟨f, hf, hmem⟩ := List.mem_flatMap.1 hentry
  rw [function_of_mem_sites hmem]
  exact exists_find?_foldl_connectFunction (Model.mem_defined_iff.1 hf).1 (m.defined p)

/-! ## The search for components -/

namespace Components

/-- The states of the search: the first one, those after the discovery of a node
of the table while no node is under way, and those after a step. -/
inductive Searched (g : CallGraph) : State → Prop where
  | start : Searched g .start
  | root {s : State} {n : NodeId} (before : Searched g s) (hidle : s.frames = [])
      (hn : n ∈ g.members) (hnew : s.number? g n = none) : Searched g (s.discover g n)
  | step {s : State} {top : Frame} {below : List Frame} (before : Searched g s)
      (hframes : s.frames = top :: below) : Searched g (s.step g top below)

theorem Searched.invariant (hg : g.Tidy) {s : State} (h : Searched g s) : Invariant g s := by
  induction h with
  | start => exact .start g
  | @root s n _ hidle hn hnew ih =>
    exact ih.discover hg hn hnew (ih.threaded.mono (keeps_discover s g n)) (by simp [hidle])
  | step _ hframes ih => exact ih.step hg hframes

/-- The node that is under way is on the stack, so that closing its component
finds it. -/
theorem Invariant.mem_stack {s : State} (hs : Invariant g s) {top : Frame} {below : List Frame}
    (hframes : s.frames = top :: below) : top.node ∈ s.stack := by
  have hthreaded := hs.threaded
  rw [hframes] at hthreaded
  generalize s.stack = stack at hthreaded
  cases hthreaded with
  | cons _ _ _ => simp

/-- Stacked nodes have numbers. -/
theorem Invariant.exists_number {s : State} (hs : Invariant g s) {n : NodeId} (hn : n ∈ s.stack) :
    ∃ k, s.number? g n = some k :=
  (hs.numbered_iff n (hs.members n (List.mem_append_left _ hn))).2 (.inl hn)

end Components

/-! ## All lookups -/

/-- Every lookup in making and measuring the annotated graph of a program finds
something. -/
structure LookupsSucceed (m : Model) (p : ProgramId) : Prop where
  /-- While calls are added, the node of each caller is there. -/
  callers : ∀ before f after, m.defined p = before ++ f :: after →
    ∃ n, (before.foldl (connectFunction m) (seats m p)).find? (m.name f) = some n
  /-- While candidates are added, no caller is missing. -/
  annotated : (buildAnnotated m p).missing = none
  /-- In every state of the search the innermost node is on the stack, and the
  nodes of the stack have numbers. -/
  search : ∀ s, Components.Searched (buildAnnotated m p).graph s →
    (∀ top ∈ s.frames.head?, top.node ∈ s.stack) ∧
      ∀ n ∈ s.stack, ∃ k, s.number? (buildAnnotated m p).graph n = some k

theorem lookupsSucceed (m : Model) (p : ProgramId) : LookupsSucceed m p := by
  refine ⟨fun before f after hsplit => ?_, missing_buildAnnotated m p, fun s hs => ?_⟩
  · have hf : f ∈ m.defined p := by simp [hsplit]
    exact exists_find?_foldl_connectFunction (Model.mem_defined_iff.1 hf).1 before
  · have hinvariant := hs.invariant (tidy_buildAnnotated m p)
    refine ⟨fun top htop => ?_, fun n hn => hinvariant.exists_number hn⟩
    obtain ⟨below, hframes⟩ := List.head?_eq_some_iff.1 htop
    exact hinvariant.mem_stack hframes

end CallReach.CallGraph
