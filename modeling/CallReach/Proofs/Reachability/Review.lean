import CallReach.Report
import CallReach.Proofs.Model.Revisions
import CallReach.Proofs.Reachability.Refresh

/-!
# Results in use

The views of a result look at the program as it stands, and programs go on being
edited.  A `Review` is a result with the model that its views look at.  Actions
edit the model and read views, in any order.

* What a query returns.  `Result.Owned`: a result has defined functions of its own
  program, each once, and those over direct calls are among them.  Edits keep this
  (`Owned.foldl`), because the defined functions of a program only ever get more
  (`defined_foldl_grows`).
* What actions do.  Edits change the model alone (`model_run`).  Of the views only
  those that show figures change the result, and only the first of them
  (`result_run`), so that the figures are always those of the first reading
  (`figures_run`).
* How a result divides the program.  `Owned.perm_defined`: the reachable functions
  and the others are together the defined functions, each once.
-/

namespace CallReach

/-! ## Programs get more functions -/

namespace Model

variable {m edited : Model} {p : ProgramId}

theorem table_attach_grows {q : ProgramId} {f : FunctionId} (hq : m.HasProgram q) :
    (m.program p).table <+: ((m.attach q f).program p).table := by
  by_cases hpq : p = q
  · subst hpq
    rw [program_attach_self hq]
    exact List.prefix_append _ _
  · rw [program_attach_of_ne hpq]

/-- An edit adds at most one function to a table, at its end. -/
theorem Effect.table_grows (h : m.Effect edited) (p : ProgramId) :
    (m.program p).table <+: (edited.program p).table := by
  cases h with
  | newProgram name => rw [program_newProgram.1]
  | newFunction name type isDefined => exact List.prefix_refl _
  | attach hq _ _ _ => exact table_attach_grows hq
  | @create q name type isDefined hq _ =>
    exact table_attach_grows (m := (m.newFunction name type isDefined).1) hq
  | rework change hf =>
    rw [program_reworkBody hf]
    split <;> exact List.prefix_refl _

/-- The defined functions of a program stay, in order, and new ones come after
them. -/
theorem Coherent.defined_grows (hm : m.Coherent) (h : m.Effect edited) :
    m.defined p <+: edited.defined p := by
  obtain ⟨more, hmore⟩ := (h.table_grows p).map (·.2)
  have hmembers : edited.members p = m.members p ++ more := hmore.symm
  have hold : (m.members p).filter (!edited.isDeclaration ·) = m.defined p := by
    refine List.filter_congr fun f hf => ?_
    rw [(h.keeps (hm.hasFunction_of_mem_members hf).2.1).2.2]
  rw [defined, defined, hmembers, List.filter_append, hold, defined]
  exact List.prefix_append _ _

theorem Coherent.defined_foldl_grows (hm : m.Coherent) (edits : List Edit) :
    m.defined p <+: (edits.foldl Edit.attempt m).defined p := by
  induction edits generalizing m with
  | nil => exact List.prefix_refl _
  | cons e rest ih =>
    rw [List.foldl_cons]
    rcases Edit.attempt_cases m e with hsame | heffect
    · rw [hsame]
      exact ih hm
    · exact (hm.defined_grows heffect).trans (ih (hm.effect heffect))

theorem Coherent.nodup_defined (hm : m.Coherent) : (m.defined p).Nodup :=
  hm.nodup_members.filter _

end Model

/-! ## What a query returns -/

/-- A result has defined functions of its program, each once.  The entry is one of
those over direct calls, and these are among those that are reachable. -/
structure Result.Owned (m : Model) (r : Result) : Prop where
  entry : r.entry ∈ r.direct
  nodup : r.reachable.Nodup
  defined : r.reachable ⊆ m.defined r.program
  direct_nodup : r.direct.Nodup
  direct_subset : r.direct ⊆ r.reachable

namespace Analysis

variable {a : Analysis} {w : Workspace} {entry : Entry} {r : Result}

/-- The graph that an analysis was given is outdated, or its direct calls between
functions of the program stay inside the program. -/
def GraphWithin (a : Analysis) (w : Workspace) : Prop :=
  a.usesGraph = true → ∀ g ∈ a.graph, (w.graph g).isOutdated w.model = false →
    CalleesWithin w.model a.program ((w.graph g).functionCallees w.model)

/-- The graph of a program, with any annotations, does not lead out of it. -/
theorem GraphInStep.graphWithin (hm : w.model.Coherent)
    (hvalid : w.model.checkRefs a.program = .ok ()) (h : a.GraphInStep w) : a.GraphWithin w := by
  intro hwalk g hg hcurrent f hf
  rw [(h hwalk g hg hcurrent).functionCallees_eq (CallGraph.tidy_build _ _) w.model f]
  exact fun k hk =>
    hm.mem_members_of_mentions hvalid (CallGraph.mentions_of_mem_functionCallees hk)

/-- A query stays inside a consistent program. -/
theorem follows_refresh (hm : w.model.Coherent) (hvalid : w.model.checkRefs a.program = .ok ())
    (hgraph : a.GraphWithin w) :
    Closure.Follows w.model a.program
      ⟨(a.refresh w).workspace.callees (a.refresh w).value,
        TypeIndex.ofProgram w.model a.program, a.callbacks⟩ := by
  refine ⟨?_, TypeIndex.exact_ofProgram hm⟩
  cases hwalk : a.usesGraph with
  | false =>
    have hscan : a.refresh w = ⟨w, a, [], none⟩ := by simp [refresh, hwalk]
    rw [hscan]
    exact hm.staticCallees_within hvalid
  | true =>
    obtain ⟨g, hvalue, hmodel, hcases⟩ := refresh_graph (w := w) hwalk
    intro f hf k hk
    simp only [hvalue, Workspace.callees, hmodel] at hk
    rcases hcases with hbuilt | ⟨hgiven, hcurrent, hkept⟩
    · rw [hbuilt] at hk
      exact hm.mem_members_of_mentions hvalid (CallGraph.mentions_of_mem_functionCallees hk)
    · rw [hkept] at hk
      exact hgraph hwalk g hgiven hcurrent f hf hk

/-- What a query returns belongs to the program, and no figures are kept yet. -/
theorem owned_of_query (hm : w.model.Coherent) (hvalid : w.model.checkRefs a.program = .ok ())
    (hgraph : a.GraphWithin w) (hr : (a.query w entry).value = .ok r) :
    r.Owned w.model ∧ r.program = a.program ∧ r.kept = none := by
  have hscope := follows_refresh hm hvalid hgraph
  rw [query_value] at hr
  generalize (⟨_, _, _⟩ : Scope) = scope at hr hscope
  cases hresolve : entry.resolve w.model a.program with
  | error fault => simp [answer, hresolve] at hr
  | ok e =>
    have he := hm.mem_defined_of_resolve hresolve
    -- Nothing bounds the query but the program itself.
    obtain ⟨scanned, queue, hfrontier, hsubset, -⟩ :=
      closureOf_ends (S := Set.univ) hm hvalid hscope (fun _ _ _ _ _ => trivial)
        (fun _ _ _ _ _ _ => trivial) he trivial
    cases hmalformed : (closureOf w.model scope e).malformed with
    | some bad => simp [answer_eq_malformed hresolve hmalformed] at hr
    | none =>
      rw [answer_eq_ok hresolve hmalformed] at hr
      cases hr
      have hentered : e ∈ walk w.model scope.callees [] [e] := by
        rw [walk, dif_neg (by simp [(Model.mem_defined_iff.1 he).2, Model.contains])]
        exact List.mem_cons_self
      exact ⟨⟨hentered, hfrontier.nodup, hfrontier.defined, nodup_walk, hsubset⟩, rfl, rfl⟩

end Analysis

/-- A part of a list without repetitions and what is left of the list are together
the list. -/
theorem perm_append_filter_not_mem {α : Type} [DecidableEq α] {part whole : List α}
    (hpart : part.Nodup) (hwhole : whole.Nodup) (hsubset : part ⊆ whole) :
    (part ++ whole.filter (· ∉ part)).Perm whole := by
  have hfilter : part.Perm (whole.filter (· ∈ part)) := by
    rw [List.perm_ext_iff_of_nodup hpart (hwhole.filter _)]
    intro a
    simp only [List.mem_filter, decide_eq_true_eq]
    exact ⟨fun ha => ⟨hsubset ha, ha⟩, fun ha => ha.2⟩
  refine (hfilter.append_right _).trans ?_
  simpa using List.filter_append_perm (fun a => decide (a ∈ part)) whole

namespace Result

variable {m : Model} {r : Result}

theorem Owned.foldl (h : r.Owned m) (hm : m.Coherent) (edits : List Edit) :
    r.Owned (edits.foldl Edit.attempt m) :=
  ⟨h.entry, h.nodup, fun _ hf => (hm.defined_foldl_grows edits).subset (h.defined hf),
    h.direct_nodup, h.direct_subset⟩

/-! ## How a result divides the program -/

theorem Owned.members (h : r.Owned m) : r.reachable ⊆ m.members r.program :=
  fun _ hf => (Model.mem_defined_iff.1 (h.defined hf)).1

/-- The functions that are not reachable, in the order of the program. -/
theorem Owned.unreachable_eq (h : r.Owned m) (hm : m.Coherent) :
    r.unreachable m = (m.defined r.program).filter (· ∉ r.reachable) := by
  refine List.filter_congr fun f hf => ?_
  have hcontains := hm.contains_iff h.members (Model.mem_defined_iff.1 hf).1
  by_cases hmem : f ∈ r.reachable <;> simp_all

/-- The reachable functions that need an indirect call. -/
theorem Owned.diff_eq (h : r.Owned m) (hm : m.Coherent) :
    m.diff r.reachable r.direct = r.reachable.filter (· ∉ r.direct) := by
  refine List.filter_congr fun f hf => ?_
  have hdirect : r.direct ⊆ m.members r.program := fun g hg => h.members (h.direct_subset hg)
  have hcontains := hm.contains_iff hdirect (h.members hf)
  by_cases hmem : f ∈ r.direct <;> simp_all

/-- The reachable functions and the others are the defined functions of the
program, each once. -/
theorem Owned.perm_defined (h : r.Owned m) (hm : m.Coherent) :
    (r.reachable ++ r.unreachable m).Perm (m.defined r.program) := by
  rw [h.unreachable_eq hm]
  exact perm_append_filter_not_mem h.nodup hm.nodup_defined h.defined

end Result

/-! ## Views and edits -/

/-- What can be read of a result. -/
inductive View where
  /-- The sets of functions, and the lists that are made of them. -/
  | functions
  | figures
  | summary
  | report (painter : Painter) (format : ReportFormat) (color : Bool)

/-- Whether a view shows the figures. -/
def View.showsFigures : View → Bool
  | functions => false
  | figures => true
  | summary => true
  | report _ format _ => format = .json

/-- A result after a view of it was read. -/
def Result.afterView (m : Model) (r : Result) : View → Result
  | .functions => r
  | .figures => (r.figures m).2.1
  | .summary => (r.summarize m).2.1
  | .report painter format color => (r.render m painter format color).result

/-- What is done while a result is in use: an edit is tried, or a view is read. -/
inductive Action where
  | edit (e : Edit)
  | look (view : View)

namespace Action

/-- The edit of an action. -/
def edit? : Action → Option Edit
  | edit e => some e
  | look _ => none

/-- Whether an action reads the figures. -/
def readsFigures : Action → Bool
  | edit _ => false
  | look view => view.showsFigures

end Action

/-- A result with the model that its views look at. -/
structure Review where
  model : Model
  result : Result

namespace Review

variable {s : Review}

/-- Carries out an action.  An edit that is refused changes nothing. -/
def perform (s : Review) : Action → Review
  | .edit e => { s with model := e.attempt s.model }
  | .look view => { s with result := s.result.afterView s.model view }

/-- Carries out actions one after the other. -/
def run (s : Review) (actions : List Action) : Review :=
  actions.foldl perform s

/-- The state in which the figures are read for the first time, or the last state
if they never are. -/
def firstReading (s : Review) (actions : List Action) : Review :=
  s.run (actions.takeWhile (!·.readsFigures))

theorem run_cons (s : Review) (action : Action) (rest : List Action) :
    s.run (action :: rest) = (s.perform action).run rest := rfl

theorem run_append (s : Review) (actions more : List Action) :
    s.run (actions ++ more) = (s.run actions).run more :=
  List.foldl_append

/-- Views do not touch the model. -/
theorem model_run (s : Review) (actions : List Action) :
    (s.run actions).model = (actions.filterMap Action.edit?).foldl Edit.attempt s.model := by
  induction actions generalizing s with
  | nil => rfl
  | cons action rest ih =>
    rw [run_cons, ih]
    cases action with
    | edit e => rfl
    | look view => rfl

theorem afterView_of_kept {m : Model} {r : Result} {figures : Figures}
    (hkept : r.kept = some figures) (view : View) : r.afterView m view = r := by
  have hfigures : r.figures m = (figures, r, []) := by rw [Result.figures, hkept]
  cases view with
  | functions => rfl
  | figures => rw [Result.afterView, hfigures]
  | summary => rw [Result.afterView, Result.summarize, hfigures]
  | report painter format color =>
    cases format with
    | text => rfl
    | json => rw [Result.afterView, Result.render, Result.summarize, hfigures]
    | dot => rfl

/-- The first view of the figures has them kept. -/
theorem afterView_of_none {m : Model} {r : Result} (hkept : r.kept = none) (view : View) :
    r.afterView m view =
      if view.showsFigures then { r with kept := some (r.measure m).1 } else r := by
  have hfigures : (r.figures m).2.1 = { r with kept := some (r.measure m).1 } := by
    rw [Result.figures, hkept]
  cases view with
  | functions => rfl
  | figures => exact hfigures
  | summary => exact hfigures
  | report painter format color =>
    cases format with
    | text => rfl
    | json => exact hfigures
    | dot => rfl

/-- A result that keeps figures does not change any more. -/
theorem result_run_of_kept {figures : Figures} (hkept : s.result.kept = some figures)
    (actions : List Action) : (s.run actions).result = s.result := by
  induction actions generalizing s with
  | nil => rfl
  | cons action rest ih =>
    have hstep : (s.perform action).result = s.result := by
      cases action with
      | edit e => rfl
      | look view => exact afterView_of_kept hkept view
    rw [run_cons, ih (by rw [hstep, hkept]), hstep]

/-- A result keeps the figures of the state in which they were first read. -/
theorem result_run (hkept : s.result.kept = none) (actions : List Action) :
    (s.run actions).result =
      if actions.any (·.readsFigures) then
        { s.result with kept := some (s.result.measure (s.firstReading actions).model).1 }
      else s.result := by
  induction actions generalizing s with
  | nil => rfl
  | cons action rest ih =>
    rw [run_cons]
    cases hreads : action.readsFigures with
    | true =>
      have hfirst : s.firstReading (action :: rest) = s := by
        rw [firstReading, List.takeWhile_cons_of_neg (by simp [hreads])]
        rfl
      have hstep : (s.perform action).result =
          { s.result with kept := some (s.result.measure s.model).1 } := by
        cases action with
        | edit e => simp [Action.readsFigures] at hreads
        | look view =>
          have hshows : view.showsFigures = true := hreads
          rw [perform, afterView_of_none hkept, if_pos hshows]
      rw [result_run_of_kept (by rw [hstep]), hstep, hfirst, List.any_cons, hreads,
        if_pos (by simp)]
    | false =>
      have hfirst : s.firstReading (action :: rest) = (s.perform action).firstReading rest := by
        rw [firstReading, List.takeWhile_cons_of_pos (by simp [hreads])]
        rfl
      have hstep : (s.perform action).result = s.result := by
        cases action with
        | edit e => rfl
        | look view =>
          have hshows : view.showsFigures = false := hreads
          rw [perform, afterView_of_none hkept, hshows]
          rfl
      rw [ih (by rw [hstep, hkept]), hstep, hfirst, List.any_cons, hreads, Bool.false_or]

/-- Whenever the figures are read, they are those of the first reading. -/
theorem figures_run (hkept : s.result.kept = none) (actions : List Action) :
    ((s.run actions).result.figures (s.run actions).model).1 =
      (s.result.measure (s.firstReading actions).model).1 := by
  rw [result_run hkept]
  cases hany : actions.any (·.readsFigures) with
  | true => rfl
  | false =>
    have hnow : s.firstReading actions = s.run actions := by
      rw [firstReading, List.takeWhile_eq_self_iff.2]
      intro action haction
      simpa using List.any_eq_false.1 hany action haction
    rw [hnow, if_neg (by simp), Result.figures, hkept]

/-- Of a result only the figures change. -/
theorem exists_result_run (hkept : s.result.kept = none) (actions : List Action) :
    ∃ kept, (s.run actions).result = { s.result with kept } := by
  rw [result_run hkept]
  split
  · exact ⟨_, rfl⟩
  · exact ⟨s.result.kept, rfl⟩

/-! ## What actions keep -/

theorem coherent_run (hm : s.model.Coherent) (actions : List Action) :
    (s.run actions).model.Coherent := by
  rw [model_run]
  exact Edit.coherent_foldl hm _

theorem defined_run_grows (hm : s.model.Coherent) (p : ProgramId) (actions : List Action) :
    s.model.defined p <+: (s.run actions).model.defined p := by
  rw [model_run]
  exact hm.defined_foldl_grows _

/-- The first reading is one of the states on the way. -/
theorem defined_firstReading_grows (hm : s.model.Coherent) (p : ProgramId)
    (actions : List Action) :
    s.model.defined p <+: (s.firstReading actions).model.defined p ∧
      (s.firstReading actions).model.defined p <+: (s.run actions).model.defined p := by
  have hend : s.run actions =
      (s.firstReading actions).run (actions.dropWhile (!·.readsFigures)) := by
    rw [firstReading, ← run_append, List.takeWhile_append_dropWhile]
  rw [hend]
  exact ⟨defined_run_grows hm p _, defined_run_grows (coherent_run hm _) p _⟩

/-- A result goes on to belong to its program. -/
theorem owned_run (hs : s.result.Owned s.model) (hm : s.model.Coherent) (actions : List Action) :
    s.result.Owned (s.run actions).model := by
  rw [model_run]
  exact hs.foldl hm _

end Review

end CallReach
