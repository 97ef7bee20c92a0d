import CallReach.Proofs.CallGraph.Statistics
import CallReach.Proofs.Report

/-!
# When the figures of a result agree

The figures of a result are measured when they are read for the first time, and
from then on they are kept, while the other views look at the program as it
stands.  `agrees_run_iff` is the consequence: the figures agree with the other
views until a function with a body is added after the first reading, and never
again from then on.
-/

namespace CallReach

/-- The figures that a result shows agree with its other views. -/
structure Review.Agrees (s : Review) : Prop where
  unreachable : (s.result.figures s.model).1.unreachable = (s.result.unreachable s.model).length
  functions : (s.result.figures s.model).1.graph.functions =
    (s.model.defined s.result.program).length
  summary : ∃ size, (s.result.summarize s.model).1.at? ["counts", "defined"] = some (.int size) ∧
    (s.result.summarize s.model).1.at? ["statistics", "functions"] = some (.int size)

/-- The annotated graph of a program has a node of its kind for every defined
function. -/
theorem CallGraph.Annotatable.functions_measure {m : Model} {r : Result}
    (hp : Annotatable m r.program) :
    (r.measure m).1.graph.functions = (m.defined r.program).length :=
  hp.countNodes_function

namespace Review

variable {s : Review}

/-- The figures that a result shows are those of the program at the first
reading. -/
theorem figures_run_eq (hkept : s.result.kept = none) (actions : List Action)
    (hfirst : CallGraph.Annotatable (s.firstReading actions).model s.result.program) :
    ((s.run actions).result.figures (s.run actions).model).1.unreachable =
        (s.result.unreachable (s.firstReading actions).model).length ∧
      ((s.run actions).result.figures (s.run actions).model).1.graph.functions =
        ((s.firstReading actions).model.defined s.result.program).length := by
  rw [figures_run hkept]
  exact ⟨rfl, hfirst.functions_measure⟩

/-- The figures agree with the other views until a function with a body is added
after the first reading. -/
theorem agrees_run_iff (hs : s.result.Owned s.model) (hm : s.model.Coherent)
    (hkept : s.result.kept = none) (actions : List Action)
    (hfirst : CallGraph.Annotatable (s.firstReading actions).model s.result.program) :
    (s.run actions).Agrees ↔ (s.run actions).model.defined s.result.program =
      (s.firstReading actions).model.defined s.result.program := by
  obtain ⟨hunreachable, hfunctions⟩ := figures_run_eq hkept actions hfirst
  obtain ⟨kept, hresult⟩ := exists_result_run hkept actions
  have hprogram : (s.run actions).result.program = s.result.program := by rw [hresult]
  constructor
  · intro hagrees
    -- The program did not get fewer functions, and as many are not more.
    have hlength := hagrees.functions
    rw [hfunctions, hprogram] at hlength
    exact ((defined_firstReading_grows hm s.result.program actions).2.eq_of_length hlength).symm
  · intro hdefined
    have hsame : (s.run actions).result.unreachable (s.run actions).model =
        s.result.unreachable (s.firstReading actions).model := by
      have hthen : s.result.Owned (s.firstReading actions).model := owned_run hs hm _
      calc (s.run actions).result.unreachable (s.run actions).model
        _ = s.result.unreachable (s.run actions).model := by
          rw [hresult]
          rfl
        _ = s.result.unreachable (s.firstReading actions).model := by
          rw [(owned_run hs hm actions).unreachable_eq (coherent_run hm actions),
            hthen.unreachable_eq (coherent_run hm _), hdefined]
    have hshown : ((s.run actions).result.figures (s.run actions).model).1.graph.functions =
        ((s.run actions).model.defined (s.run actions).result.program).length := by
      rw [hfunctions, hprogram, hdefined]
    refine ⟨by rw [hunreachable, hsame], hshown,
      ((s.run actions).model.defined (s.run actions).result.program).length, ?_, ?_⟩
    · rw [Result.summarize_fst, Json.at?_pair rfl]
      rfl
    · rw [Result.summarize_fst, Json.at?_pair rfl, ← hshown]
      exact Figures.get?_toJson List.mem_cons_self

end Review

namespace Analysis

theorem query_relay :
    (query ⟨⟨0⟩, none, false, true⟩ ⟨Model.Relay.model, #[]⟩ (.named "main")).value =
      .ok ⟨⟨0⟩, ⟨0⟩, [⟨0⟩, ⟨1⟩, ⟨3⟩, ⟨4⟩], [⟨0⟩, ⟨1⟩], none⟩ := by
  rw [query_value_of_scan rfl]
  exact answer_relay

/-- Whatever is edited and read after a query about a consistent program: the
figures that the result shows are those of the program at their first reading.
They agree with the other views exactly when no function with a body was added
since. -/
theorem query_figures_agree_iff {a : Analysis} {w : Workspace} {entry : Entry} {r : Result}
    (hmade : w.model.Made) (hvalid : w.model.checkRefs a.program = .ok ())
    (hgraph : a.GraphWithin w) (hr : (a.query w entry).value = .ok r) (actions : List Action)
    (hrefs : (Review.firstReading ⟨w.model, r⟩ actions).model.checkRefs a.program = .ok ())
    (hunknown : (Review.firstReading ⟨w.model, r⟩ actions).model.find? a.program
      CallGraph.unknownId = none) :
    let first := Review.firstReading ⟨w.model, r⟩ actions
    let last := Review.run ⟨w.model, r⟩ actions
    (last.result.figures last.model).1.unreachable = (r.unreachable first.model).length ∧
      (last.result.figures last.model).1.graph.functions =
        (first.model.defined a.program).length ∧
      (last.Agrees ↔ last.model.defined a.program = first.model.defined a.program) := by
  intro first last
  have hm := hmade.coherent
  obtain ⟨howned, hprogram, hkept⟩ := owned_of_query hm hvalid hgraph hr
  have hfirst : CallGraph.Annotatable first.model r.program := by
    rw [hprogram]
    exact ⟨Review.coherent_run hm _, hrefs, hunknown⟩
  rw [← hprogram]
  obtain ⟨hunreachable, hfunctions⟩ :=
    Review.figures_run_eq (s := ⟨w.model, r⟩) hkept actions hfirst
  exact ⟨hunreachable, hfunctions,
    Review.agrees_run_iff (s := ⟨w.model, r⟩) howned hm hkept actions hfirst⟩

/-- In the small program one of five functions is not reached from `main`.  These
are the figures also after a sixth function was added. -/
theorem query_figures_agree_iff_relay :
    let r : Result := ⟨⟨0⟩, ⟨0⟩, [⟨0⟩, ⟨1⟩, ⟨3⟩, ⟨4⟩], [⟨0⟩, ⟨1⟩], none⟩
    let last := Review.run ⟨Model.Relay.model, r⟩
      [.look .summary, .edit (.create ⟨0⟩ "late" Model.Relay.worker true), .look .figures]
    (query ⟨⟨0⟩, none, false, true⟩ ⟨Model.Relay.model, #[]⟩ (.named "main")).value = .ok r ∧
      (last.result.figures last.model).1.unreachable = 1 ∧
      (last.result.figures last.model).1.graph.functions = 5 ∧ ¬last.Agrees := by
  intro r last
  obtain ⟨hunreachable, hfunctions, hagrees⟩ := query_figures_agree_iff
    (a := ⟨⟨0⟩, none, false, true⟩) (w := ⟨Model.Relay.model, #[]⟩) Model.Relay.made rfl
    (fun hwalk => by simp at hwalk) query_relay
    [.look .summary, .edit (.create ⟨0⟩ "late" Model.Relay.worker true), .look .figures] rfl rfl
  refine ⟨query_relay, hunreachable, hfunctions, fun h => ?_⟩
  have hdefined := hagrees.1 h
  rw [Review.model_run] at hdefined
  revert hdefined
  decide

/-- The figures of a result do not always agree with its other views, not even
when the program is consistent all along: here one function is added after they
were read. -/
theorem not_forall_figures_agree :
    ¬∀ (a : Analysis) (w : Workspace) (entry : Entry) (r : Result) (actions : List Action),
      w.model.Made → a.GraphWithin w → (a.query w entry).value = .ok r →
      (∀ before, before <+: actions →
        (Review.run ⟨w.model, r⟩ before).model.checkRefs a.program = .ok () ∧
          (Review.run ⟨w.model, r⟩ before).model.find? a.program CallGraph.unknownId = none) →
      (Review.run ⟨w.model, r⟩ actions).Agrees := by
  intro hall
  have hm := Model.Relay.made.coherent
  have hgraph : GraphWithin ⟨⟨0⟩, none, false, true⟩ ⟨Model.Relay.model, #[]⟩ :=
    fun hwalk => by simp at hwalk
  obtain ⟨howned, -, hkept⟩ := owned_of_query hm rfl hgraph query_relay
  let actions : List Action :=
    [.look .figures, .edit (.create ⟨0⟩ "late" Model.Relay.worker true)]
  have hagrees := hall _ _ _ _ actions Model.Relay.made hgraph query_relay fun before hbefore => by
      rw [Review.model_run]
      simp only [actions, List.prefix_cons_iff, List.prefix_nil] at hbefore
      rcases hbefore with rfl | ⟨_, rfl, rfl | ⟨_, rfl, rfl⟩⟩ <;> exact ⟨rfl, rfl⟩
  have hdefined := (Review.agrees_run_iff (s := ⟨Model.Relay.model, _⟩) howned hm hkept actions
    ⟨hm, rfl, rfl⟩).1 hagrees
  rw [Review.model_run] at hdefined
  revert hdefined
  decide

end Analysis

end CallReach
