import CallReach.Proofs.Model.Revisions
import CallReach.Proofs.Reachability.Refresh

/-!
# Sessions

A session is a workspace with the analyses in use.  Operations edit programs,
build and annotate graphs, create analyses and ask them, in any order, and may be
refused.

* `CallGraph.Kept` is what holds of every graph: it is no newer than its
  program, and where it is not outdated it is the graph that would be built now,
  with annotations.  An edit moves the revision of the program or changes nothing
  that the graph was built from.
* `Session.Sound` is the invariant, with one lemma for each operation and
  `Sound.run` for a whole session.
* `Session.Advances` says that graphs keep their revision and programs do not go
  back to an earlier one.

`run_query_eq_fresh` is the conclusion: an analysis of a session answers like a
new one, and a graph that is outdated stays so.
-/

namespace CallReach

/-! ## Operations -/

/-- A workspace with the analyses in use. -/
structure Session where
  workspace : Workspace
  analyses : Array Analysis

/-- What can be done in a session.  An analysis is named by its position. -/
inductive Operation where
  | edit (e : Edit)
  | build (p : ProgramId)
  | annotate (g : GraphId) (index : TypeIndex)
  | analyze (p : ProgramId) (graph : Option GraphId) (usesGraph callbacks : Bool)
  | query (i : Nat) (entry : Entry)
  /-- A query over direct calls alone. -/
  | queryDirect (i : Nat) (entry : Entry)
  /-- Asks for the graph in use. -/
  | refresh (i : Nat)

namespace Session

/-- The session in which nothing was done. -/
def empty : Session := ⟨.empty, #[]⟩

/-- The model of a session. -/
def model (s : Session) : Model :=
  s.workspace.model

/-- The graph with an id. -/
def graph (s : Session) (g : GraphId) : CallGraph :=
  s.workspace.graph g

/-- A graph id that names a graph. -/
def HasGraph (s : Session) (g : GraphId) : Prop :=
  g.index < s.workspace.graphs.size

instance (s : Session) (g : GraphId) : Decidable (s.HasGraph g) :=
  inferInstanceAs (Decidable (g.index < s.workspace.graphs.size))

/-- The session after an analysis has answered. -/
def settle {α : Type} (s : Session) (i : Nat) (answer : Answer α) : Session :=
  ⟨answer.workspace, s.analyses.setIfInBounds i answer.analysis⟩

/-- Puts a question to an analysis. -/
def ask {α : Type} (s : Session) (i : Nat) (question : Analysis → Answer α) : Session :=
  match s.analyses[i]? with
  | some a => s.settle i (question a)
  | none => s

/-- Carries out an operation.  What names something that is not there changes
nothing, and an edit that is refused leaves what it has left. -/
def perform (s : Session) : Operation → Session
  | .edit e =>
      if ∀ f ∈ e.refs, s.model.HasFunction f then
        { s with workspace := { s.workspace with model := e.attempt s.model } }
      else s
  | .build p => { s with workspace := (s.workspace.buildGraph p).1 }
  | .annotate g index => { s with workspace := (s.workspace.annotateGraph g index).1 }
  | .analyze p graph usesGraph callbacks =>
      if ∀ g ∈ graph, s.HasGraph g then
        match Analysis.create s.workspace p graph usesGraph callbacks with
        | .ok a => { s with analyses := s.analyses.push a }
        | .error _ => s
      else s
  | .query i entry => s.ask i (·.query s.workspace entry)
  | .queryDirect i entry => s.ask i (·.directlyReached s.workspace entry)
  | .refresh i => s.ask i (·.refresh s.workspace)

/-- Carries out operations one after the other. -/
def run (s : Session) (operations : List Operation) : Session :=
  operations.foldl perform s

end Session

/-! ## Graphs that are kept -/

namespace CallGraph

variable {g : CallGraph} {m edited : Model}

/-- A graph of a program of the model: it is no newer than the program, and
where it is not outdated it is the graph that would be built now, with
annotations. -/
structure Kept (m : Model) (g : CallGraph) : Prop where
  tidy : g.Tidy
  revision_le : g.revision ≤ (m.program g.program).revision
  inStep : g.isOutdated m = false → Annotates (build m g.program) g

theorem Kept.build (m : Model) (p : ProgramId) : (build m p).Kept m := by
  have hgrows := (plain_build m p).grows
  have hprogram : (CallGraph.build m p).program = p := hgrows.program
  refine ⟨tidy_build m p, ?_, fun _ => ?_⟩
  · rw [hprogram]
    exact Nat.le_of_eq hgrows.revision
  · rw [hprogram]
    exact .refl _

theorem Kept.annotate (hg : g.Kept m) (index : TypeIndex) :
    (annotate m index g).graph.Kept m := by
  have hannotates := annotates_annotate hg.tidy m index
  refine ⟨hannotates.tidy hg.tidy, ?_, fun hcurrent => ?_⟩
  · rw [hannotates.program, hannotates.revision]
    exact hg.revision_le
  · rw [isOutdated, hannotates.program, hannotates.revision] at hcurrent
    rw [hannotates.program]
    exact (hg.inStep hcurrent).trans hannotates

/-- An edit makes a graph outdated, or changes nothing that it was built
from. -/
theorem Kept.effect (hg : g.Kept m) (hm : m.Coherent) (hground : m.Grounded)
    (heffect : m.Effect edited) : g.Kept edited := by
  have hle := heffect.revision_le g.program
  refine ⟨hg.tidy, Nat.le_trans hg.revision_le hle, fun hcurrent => ?_⟩
  have hnow : g.revision = (edited.program g.program).revision := by
    simpa [isOutdated] using hcurrent
  have hbefore := hg.revision_le
  have hrevision : (edited.program g.program).revision = (m.program g.program).revision := by
    omega
  have hagree := hm.agree_of_effect heffect hrevision
  rw [build_congr hagree hrevision fun f hf =>
    (heffect.keeps (hground.hasFunction_of_mentions hm hf)).2]
  exact hg.inStep (by simp [isOutdated, hnow, hrevision])

end CallGraph

/-! ## The invariant -/

namespace Session

variable {s t : Session}

/-- What holds in every session.  The graph of an analysis is a graph of its
program. -/
structure Sound (s : Session) : Prop where
  made : s.model.Made
  grounded : s.model.Grounded
  kept : ∀ g, s.HasGraph g → (s.graph g).Kept s.model
  own : ∀ a ∈ s.analyses, ∀ g ∈ a.graph, s.HasGraph g ∧ (s.graph g).program = a.program

/-- How a session goes on: graphs keep their program and their revision, and no
program goes back to an earlier revision. -/
structure Advances (s t : Session) : Prop where
  revision_le : ∀ p, (s.model.program p).revision ≤ (t.model.program p).revision
  graph : ∀ g, s.HasGraph g → t.HasGraph g ∧ (t.graph g).program = (s.graph g).program ∧
    (t.graph g).revision = (s.graph g).revision

/-- The analyses are not part of it. -/
theorem Advances.analyses (s : Session) (analyses : Array Analysis) :
    s.Advances { s with analyses } :=
  ⟨fun _ => Nat.le_refl _, fun _ hg => ⟨hg, rfl, rfl⟩⟩

theorem Advances.refl (s : Session) : s.Advances s :=
  .analyses s s.analyses

theorem Advances.trans {u : Session} (first : s.Advances t) (second : t.Advances u) :
    s.Advances u := by
  refine ⟨fun p => Nat.le_trans (first.revision_le p) (second.revision_le p), fun g hg => ?_⟩
  obtain ⟨hgraph, hprogram, hrevision⟩ := first.graph g hg
  obtain ⟨hgraph', hprogram', hrevision'⟩ := second.graph g hgraph
  exact ⟨hgraph', hprogram'.trans hprogram, hrevision'.trans hrevision⟩

theorem Sound.empty : Session.empty.Sound := by
  refine ⟨.empty, fun f block hblock => ?_, fun g hg => ?_, fun a ha => ?_⟩
  · simp [Session.empty, model, Workspace.empty, Model.empty, Model.blocks, Model.function]
      at hblock
  · simp [Session.empty, HasGraph, Workspace.empty] at hg
  · simp [Session.empty] at ha

/-! ### One operation -/

theorem Sound.edit (hs : s.Sound) {e : Edit} {edited : Model} (hscope : e.InScope s.model)
    (hrefs : ∀ f ∈ e.refs, s.model.HasFunction f) (happly : e.apply s.model = .ok edited) :
    Sound { s with workspace := { s.workspace with model := edited } } ∧
      s.Advances { s with workspace := { s.workspace with model := edited } } := by
  have heffect := Model.effect_of_apply hscope happly
  refine ⟨⟨hs.made.edit hscope happly, hs.grounded.edit hscope hrefs happly, fun g hg => ?_,
    hs.own⟩, ⟨heffect.revision_le, fun g hg => ⟨hg, rfl, rfl⟩⟩⟩
  exact (hs.kept g hg).effect hs.made.coherent hs.grounded heffect

theorem graph_buildGraph_of_has {p : ProgramId} {g : GraphId} (hg : s.HasGraph g) :
    (s.workspace.buildGraph p).1.graph g = s.graph g := by
  have hne : g.index ≠ s.workspace.graphs.size := Nat.ne_of_lt hg
  simp [Workspace.buildGraph, Workspace.graph, graph, Array.getD_eq_getD_getElem?,
    Array.getElem?_push, hne]

/-- After a graph was built the graphs are the old ones and the new one. -/
theorem hasGraph_buildGraph_cases {p : ProgramId} {g : GraphId}
    (hg : g.index < (s.workspace.buildGraph p).1.graphs.size) :
    s.HasGraph g ∨ g = (s.workspace.buildGraph p).2 := by
  simp only [Workspace.buildGraph, Array.size_push] at hg
  rcases Nat.lt_succ_iff_lt_or_eq.1 hg with hlt | heq
  · exact .inl hlt
  · cases g
    exact .inr (by simp_all [Workspace.buildGraph])

/-- Building a graph keeps the invariant, also when the new graph is handed to
an analysis of its program. -/
theorem Sound.build (hs : s.Sound) (p : ProgramId) {analyses : Array Analysis}
    (hanalyses : ∀ a ∈ analyses, a ∈ s.analyses ∨
      a.program = p ∧ a.graph = some (s.workspace.buildGraph p).2) :
    Sound ⟨(s.workspace.buildGraph p).1, analyses⟩ ∧
      s.Advances ⟨(s.workspace.buildGraph p).1, analyses⟩ := by
  have hgrow {g : GraphId} (hg : s.HasGraph g) :
      g.index < (s.workspace.buildGraph p).1.graphs.size := by
    simp only [Workspace.buildGraph, Array.size_push]
    exact Nat.lt_succ_of_lt hg
  have hnew := s.workspace.graph_buildGraph p
  refine ⟨⟨hs.made, hs.grounded, fun g hg => ?_, fun a ha g hg => ?_⟩,
    ⟨fun _ => Nat.le_refl _, fun g hg => ⟨hgrow hg, ?_⟩⟩⟩
  · simp only [graph, model]
    rcases hasGraph_buildGraph_cases hg with hold | rfl
    · rw [graph_buildGraph_of_has hold]
      exact hs.kept g hold
    · rw [hnew]
      exact .build _ p
  · simp only [graph]
    rcases hanalyses a ha with hold | ⟨hprogram, hgraph⟩
    · obtain ⟨hhas, hown⟩ := hs.own a hold g hg
      rw [graph_buildGraph_of_has hhas]
      exact ⟨hgrow hhas, hown⟩
    · obtain rfl : (s.workspace.buildGraph p).2 = g := by simpa [hgraph] using hg
      rw [hnew, hprogram]
      exact ⟨by simp [HasGraph, Workspace.buildGraph],
        (CallGraph.plain_build s.workspace.model p).grows.program⟩
  · simp only [graph]
    rw [graph_buildGraph_of_has hg]
    exact ⟨rfl, rfl⟩

theorem graph_setGraph (w : Workspace) (g other : GraphId) (graph : CallGraph) :
    (w.setGraph g graph).graph other =
      if other = g ∧ g.index < w.graphs.size then graph else w.graph other := by
  cases g
  cases other
  simp only [Workspace.setGraph, Workspace.graph, Array.getD_eq_getD_getElem?,
    Array.getElem?_setIfInBounds, GraphId.mk.injEq]
  grind

/-- Annotating is the one operation that changes a graph. -/
theorem Sound.annotate (hs : s.Sound) (g : GraphId) (index : TypeIndex) :
    (s.perform (.annotate g index)).Sound ∧ s.Advances (s.perform (.annotate g index)) := by
  have hhas (other : GraphId) : (s.perform (.annotate g index)).HasGraph other ↔
      s.HasGraph other := by
    simp [perform, HasGraph, Workspace.annotateGraph, Workspace.setGraph]
  have hgraph (other : GraphId) : (s.perform (.annotate g index)).graph other =
      if other = g ∧ s.HasGraph g then (CallGraph.annotate s.model index (s.graph g)).graph
      else s.graph other :=
    graph_setGraph _ _ _ _
  have hkept (other : GraphId) (ho : s.HasGraph other) :
      ((s.perform (.annotate g index)).graph other).Kept s.model ∧
        ((s.perform (.annotate g index)).graph other).program = (s.graph other).program ∧
          ((s.perform (.annotate g index)).graph other).revision = (s.graph other).revision := by
    rw [hgraph]
    split
    · rename_i h
      obtain ⟨rfl, hg⟩ := h
      have hannotates := CallGraph.annotates_annotate (hs.kept other hg).tidy s.model index
      exact ⟨(hs.kept other hg).annotate index, hannotates.program, hannotates.revision⟩
    · exact ⟨hs.kept other ho, rfl, rfl⟩
  refine ⟨⟨hs.made, hs.grounded, fun other ho => (hkept other ((hhas other).1 ho)).1,
    fun a ha other ho => ?_⟩, ⟨fun _ => Nat.le_refl _, fun other ho => ?_⟩⟩
  · obtain ⟨hold, hown⟩ := hs.own a ha other ho
    exact ⟨(hhas other).2 hold, (hkept other hold).2.1.trans hown⟩
  · exact ⟨(hhas other).2 ho, (hkept other ho).2⟩

/-- A new analysis has no graph, or one of its program. -/
theorem Sound.analyze (hs : s.Sound) {p : ProgramId} {given : Option GraphId}
    {usesGraph callbacks : Bool} {a : Analysis} (hgiven : ∀ g ∈ given, s.HasGraph g)
    (hcreate : Analysis.create s.workspace p given usesGraph callbacks = .ok a) :
    Sound { s with analyses := s.analyses.push a } := by
  have hnew : ∀ g ∈ a.graph, s.HasGraph g ∧ (s.graph g).program = a.program := by
    intro g hg
    unfold Analysis.create at hcreate
    split at hcreate
    · split at hcreate
      · rename_i hprogram
        cases hcreate
        cases hg
        exact ⟨hgiven g rfl, hprogram⟩
      · cases hcreate
    · cases hcreate
      cases hg
  refine ⟨hs.made, hs.grounded, hs.kept, fun b hb => ?_⟩
  rcases Array.mem_push.1 hb with hold | rfl
  · exact hs.own b hold
  · exact hnew

end Session

/-! ### Questions -/

namespace Analysis

variable {α : Type} {a : Analysis} {w : Workspace}

/-- An answer leaves all as it was, or it comes with a graph that was built for
it. -/
def Leaves (a : Analysis) (w : Workspace) (answer : Answer α) : Prop :=
  (answer.workspace = w ∧ answer.analysis = a) ∨
    (answer.workspace = (w.buildGraph a.program).1 ∧
      answer.analysis = { a with graph := some (w.buildGraph a.program).2 })

theorem leaves_refresh (a : Analysis) (w : Workspace) : a.Leaves w (a.refresh w) := by
  unfold refresh
  split
  · exact .inl ⟨rfl, rfl⟩
  · split
    · exact .inr ⟨rfl, rfl⟩
    · split
      · exact .inr ⟨rfl, rfl⟩
      · exact .inl ⟨rfl, rfl⟩

theorem leaves_query (a : Analysis) (w : Workspace) (entry : Entry) :
    a.Leaves w (a.query w entry) := by
  unfold query
  split
  · exact .inl ⟨rfl, rfl⟩
  · dsimp only
    split <;> exact leaves_refresh a w

theorem leaves_directlyReached (a : Analysis) (w : Workspace) (entry : Entry) :
    a.Leaves w (a.directlyReached w entry) := by
  unfold directlyReached
  split
  · exact .inl ⟨rfl, rfl⟩
  · exact leaves_refresh a w

end Analysis

namespace Session

variable {s t : Session}

theorem Sound.settle (hs : s.Sound) {α : Type} {i : Nat} {a : Analysis} {answer : Answer α}
    (ha : s.analyses[i]? = some a) (hleaves : a.Leaves s.workspace answer) :
    (s.settle i answer).Sound ∧ s.Advances (s.settle i answer) := by
  have hmem : a ∈ s.analyses := Array.mem_of_getElem? ha
  rw [Session.settle]
  rcases hleaves with ⟨hworkspace, hanalysis⟩ | ⟨hworkspace, hanalysis⟩
  · rw [hworkspace, hanalysis]
    refine ⟨⟨hs.made, hs.grounded, hs.kept, fun b hb => ?_⟩, .analyses s _⟩
    rcases Array.mem_or_eq_of_mem_setIfInBounds hb with hold | rfl
    · exact hs.own b hold
    · exact hs.own b hmem
  · rw [hworkspace, hanalysis]
    refine hs.build a.program fun b hb => ?_
    rcases Array.mem_or_eq_of_mem_setIfInBounds hb with hold | rfl
    · exact .inl hold
    · exact .inr ⟨rfl, rfl⟩

theorem Sound.ask (hs : s.Sound) {α : Type} (i : Nat) {question : Analysis → Answer α}
    (hleaves : ∀ a : Analysis, a.Leaves s.workspace (question a)) :
    (s.ask i question).Sound ∧ s.Advances (s.ask i question) := by
  rw [Session.ask]
  split
  · rename_i a ha
    exact hs.settle ha (hleaves a)
  · exact ⟨hs, .refl s⟩

/-! ### A whole session -/

theorem Sound.perform (hs : s.Sound) (operation : Operation) :
    (s.perform operation).Sound ∧ s.Advances (s.perform operation) := by
  have hsame : s.Sound ∧ s.Advances s := ⟨hs, .refl s⟩
  cases operation with
  | edit e =>
    rw [Session.perform]
    split
    · rename_i hrefs
      rcases Edit.exists_apply_attempt s.model e with hkept | ⟨made, hscope, happly, hmade⟩
      · rw [hkept]
        exact hsame
      · refine hs.edit hscope ?_ happly
        rcases hmade with rfl | ⟨name, type, isDefined, rfl⟩
        · exact hrefs
        · exact fun f hf => absurd hf List.not_mem_nil
    · exact hsame
  | build p => exact hs.build p fun a ha => .inl ha
  | annotate g index => exact hs.annotate g index
  | analyze p given usesGraph callbacks =>
    rw [Session.perform]
    split
    · rename_i hgiven
      split
      · rename_i hcreate
        exact ⟨hs.analyze hgiven hcreate, .analyses s _⟩
      · exact hsame
    · exact hsame
  | query i entry => exact hs.ask i fun a => a.leaves_query _ entry
  | queryDirect i entry => exact hs.ask i fun a => a.leaves_directlyReached _ entry
  | refresh i => exact hs.ask i fun a => a.leaves_refresh _

theorem Sound.run (hs : s.Sound) (operations : List Operation) :
    (s.run operations).Sound ∧ s.Advances (s.run operations) := by
  induction operations generalizing s with
  | nil => exact ⟨hs, .refl s⟩
  | cons operation rest ih =>
    obtain ⟨hstep, hadvance⟩ := hs.perform operation
    obtain ⟨hrun, hrest⟩ := ih hstep
    exact ⟨hrun, hadvance.trans hrest⟩

/-- The graph of an analysis is outdated, or in step with the program. -/
theorem Sound.graphInStep (hs : s.Sound) {a : Analysis} (ha : a ∈ s.analyses) :
    a.GraphInStep s.workspace := by
  intro _ g hg hcurrent
  obtain ⟨hhas, hprogram⟩ := hs.own a ha g hg
  have hannotates := (hs.kept g hhas).inStep hcurrent
  rwa [hprogram] at hannotates

/-- A graph that is outdated stays so. -/
theorem Sound.isOutdated_advances (hs : s.Sound) (hadvance : s.Advances t) {g : GraphId}
    (hg : s.HasGraph g) (houtdated : (s.graph g).isOutdated s.model = true) :
    (t.graph g).isOutdated t.model = true := by
  have hle := (hs.kept g hg).revision_le
  obtain ⟨-, hprogram, hrevision⟩ := hadvance.graph g hg
  have hadvanced := hadvance.revision_le (s.graph g).program
  simp only [CallGraph.isOutdated, hprogram, hrevision, decide_eq_true_eq] at houtdated ⊢
  omega

/-- Whatever was done before, an analysis answers every question like one that
was created now, without a graph and with the same flags; and a graph that has
become outdated stays so, whatever is done after. -/
theorem run_query_eq_fresh (operations : List Operation) :
    (∀ a ∈ (empty.run operations).analyses,
      ∃ fresh, Analysis.create (empty.run operations).workspace a.program none a.usesGraph
          a.callbacks = .ok fresh ∧
        ∀ entry,
          (a.query (empty.run operations).workspace entry).value =
              (fresh.query (empty.run operations).workspace entry).value ∧
            (a.directlyReached (empty.run operations).workspace entry).value =
              (fresh.directlyReached (empty.run operations).workspace entry).value) ∧
      ∀ g, (empty.run operations).HasGraph g →
        ((empty.run operations).graph g).isOutdated (empty.run operations).model = true →
        ∀ more, ((empty.run (operations ++ more)).graph g).isOutdated
          (empty.run (operations ++ more)).model = true := by
  obtain ⟨hsound, -⟩ := Sound.empty.run operations
  refine ⟨fun a ha => ⟨_, rfl, fun entry => ?_⟩, fun g hg houtdated more => ?_⟩
  · have hgraph := hsound.graphInStep ha
    have hfresh : Analysis.GraphInStep ⟨a.program, none, a.usesGraph, a.callbacks⟩
        (empty.run operations).workspace := fun _ g hg => by cases hg
    rw [Analysis.query_value_eq_fresh hgraph, Analysis.query_value_eq_fresh hfresh,
      Analysis.directlyReached_value_eq_fresh hgraph,
      Analysis.directlyReached_value_eq_fresh hfresh]
    exact ⟨rfl, rfl⟩
  · rw [run, List.foldl_append]
    exact hsound.isOutdated_advances (hsound.run more).2 hg houtdated

/-- A session in which `main` calls something with the type of a worker.  Its
graph is built, annotated with a candidate and handed to an analysis, which
answers with it.  Then a function that no program owns gets a body, a second
`main` is refused, and the new function becomes a part of the program, called by
`main`. -/
def lateOperations : List Operation :=
  [.edit (.newProgram "relay"), .edit (.create ⟨0⟩ "main" Model.Relay.worker true),
   .edit (.newBlock ⟨0⟩ none),
   .edit (.newCall ⟨⟨0⟩, 0⟩ .absent [] (some Model.Relay.worker) .call),
   .build ⟨0⟩, .annotate ⟨0⟩ ⟨[(Model.Relay.worker, [⟨0⟩])]⟩,
   .analyze ⟨0⟩ (some ⟨0⟩) true true, .queryDirect 0 (.named "main"),
   .edit (.newFunction "late" Model.Relay.handler true), .edit (.newBlock ⟨1⟩ none),
   .edit (.create ⟨0⟩ "main" Model.Relay.handler true), .edit (.adopt ⟨0⟩ ⟨1⟩),
   .edit (.newCall ⟨⟨0⟩, 0⟩ (.function ⟨1⟩) [] none .call)]

/-- The analysis still has the outdated graph and finds the new function. -/
theorem run_query_eq_fresh_late :
    (⟨⟨0⟩, some ⟨0⟩, true, true⟩ : Analysis) ∈ (empty.run lateOperations).analyses ∧
      ((⟨⟨0⟩, some ⟨0⟩, true, true⟩ : Analysis).query (empty.run lateOperations).workspace
          (.named "main")).value =
        .ok ⟨⟨0⟩, ⟨0⟩, [⟨0⟩, ⟨1⟩], [⟨0⟩, ⟨1⟩], none⟩ ∧
      ((empty.run lateOperations).graph ⟨0⟩).isOutdated (empty.run lateOperations).model = true ∧
      ∀ more, ((empty.run (lateOperations ++ more)).graph ⟨0⟩).isOutdated
        (empty.run (lateOperations ++ more)).model = true := by
  obtain ⟨hanswers, hstays⟩ := run_query_eq_fresh lateOperations
  have hanalyses : (empty.run lateOperations).analyses = #[⟨⟨0⟩, some ⟨0⟩, true, true⟩] := by cbv
  have hgraphs : (empty.run lateOperations).workspace.graphs.size = 1 := by cbv
  have houtdated : ((empty.run lateOperations).graph ⟨0⟩).isOutdated
      (empty.run lateOperations).model = true := by cbv
  have ha : (⟨⟨0⟩, some ⟨0⟩, true, true⟩ : Analysis) ∈ (empty.run lateOperations).analyses := by
    simp [hanalyses]
  obtain ⟨fresh, hcreate, hsame⟩ := hanswers _ ha
  refine ⟨ha, ?_, houtdated, hstays ⟨0⟩ (by simp [HasGraph, hgraphs]) houtdated⟩
  cases hcreate
  rw [(hsame (.named "main")).1, Analysis.query_value]
  cbv

end Session

end CallReach
