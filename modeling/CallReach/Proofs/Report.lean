import CallReach.Proofs.Table
import CallReach.Proofs.Reachability.LeastClosure
import CallReach.Proofs.Reachability.Review

/-!
# What reports list

A listing names the reachable functions by name, and then the other defined
functions in the order of the program.  A summary names the same functions and
counts them.  `Result.Reports` says so for one result and the program as it
stands, and `Owned.reports` derives it, as long as the figures that are kept were
measured on the same defined functions.  `query_reports` is the conclusion for
queries: until the program changes, its reports divide the defined functions.
-/

namespace CallReach

/-- The value at the end of a path of names. -/
def Json.at? (value : Json) (path : List String) : Option Json :=
  path.foldlM get? value

/-- The reports of a result list `found`, the reachable functions in strictly
increasing order of their names, and `rest`, the other defined functions in the
order of the program. -/
structure Result.Reports (m : Model) (r : Result) (found rest : List FunctionId) : Prop where
  /-- The defined functions, and no others, are in one of the two sets. -/
  covers : ∀ f, f ∈ r.reachable ∨ f ∈ r.unreachable m ↔ f ∈ m.defined r.program
  disjoint : ∀ f, ¬(f ∈ r.reachable ∧ f ∈ r.unreachable m)
  found_perm : found.Perm r.reachable
  increasing : (found.map m.name).Pairwise (· < ·)
  rest_eq : rest = (m.defined r.program).filter (· ∉ r.reachable)
  unreachable_eq : r.unreachable m = rest
  /-- A defined function is listed once, and nothing else is. -/
  once : ∀ f, (found ++ rest).count f = if f ∈ m.defined r.program then 1 else 0
  /-- The listing without colours, whatever would paint it. -/
  text : ∀ painter, (r.render m painter .text false).text = "\n".intercalate
    (["Functions reachable from " ++ m.name r.entry ++ " are"] ++
      found.map (fun f => "+++" ++ m.name f ++ if f ∈ r.direct then "" else "  (indirect)") ++
      ["Non reachable functions"] ++ rest.map fun f => "---" ++ m.name f)
  reachable : (r.summarize m).1.at? ["reachable"] = some (nameArray (found.map m.name))
  unreachable : (r.summarize m).1.at? ["unreachable"] = some (nameArray (rest.map m.name))
  onlyIndirect : (r.summarize m).1.at? ["indirect_only"] =
    some (nameArray ((found.filter (· ∉ r.direct)).map m.name))
  counts : ∀ name size, (name, size) ∈
      [("defined", found.length + rest.length), ("reachable", found.length),
       ("direct", r.direct.length)] →
    (r.summarize m).1.at? ["counts", name] = some (.int size)
  statistics : ∀ name size, (name, size) ∈
      [("reachable", found.length), ("direct", r.direct.length),
       ("indirect_only", (found.filter (· ∉ r.direct)).length), ("unreachable", rest.length)] →
    (r.summarize m).1.at? ["statistics", name] = some (.int size)
  length_direct : r.direct.length + (found.filter (· ∉ r.direct)).length = found.length

/-! ## The order of names -/

namespace Model.Coherent

variable {m : Model} {p : ProgramId} {set : FunctionSet}

/-- Functions of one program are sorted strictly, since no two share a name. -/
theorem pairwise_sorted (hm : m.Coherent) (hset : set ⊆ m.members p) (hnodup : set.Nodup) :
    (m.sorted set).Pairwise fun f g => m.name f < m.name g := by
  have hordered : (m.sorted set).Pairwise fun f g => decide (m.name f ≤ m.name g) = true :=
    List.pairwise_mergeSort (by simpa using fun f g h => String.le_trans)
      (by simpa using fun f g => String.le_total (m.name f) (m.name g)) set
  have hdistinct : (m.sorted set).Pairwise (· ≠ ·) := (sorted_perm set).nodup_iff.2 hnodup
  refine (hordered.and hdistinct).imp_of_mem fun {f g} hf hg ⟨hle, hne⟩ => ?_
  have hnames : m.name f ≠ m.name g := fun heq =>
    hne (hm.eq_of_name_eq (hset (mem_sorted.1 hf)) (hset (mem_sorted.1 hg)) heq)
  exact lt_of_le_of_ne (of_decide_eq_true hle) hnames

/-- A selection is sorted as the whole is. -/
theorem sorted_filter (hm : m.Coherent) (hset : set ⊆ m.members p) (hnodup : set.Nodup)
    (keep : FunctionId → Bool) : m.sorted (set.filter keep) = (m.sorted set).filter keep := by
  have hselected : set.filter keep ⊆ m.members p := fun _ hf => hset (List.mem_filter.1 hf).1
  apply List.Perm.eq_of_pairwise (fun f g _ _ hlt hgt => absurd hgt (lt_asymm hlt))
    (hm.pairwise_sorted hselected (hnodup.filter keep))
    ((hm.pairwise_sorted hset hnodup).filter keep)
  exact (sorted_perm _).trans ((sorted_perm set).symm.filter keep)

end Model.Coherent

/-! ## Reading a report -/

theorem Json.at?_pair {value inner : Json} {outer : String} (h : value.get? outer = some inner)
    (name : String) : value.at? [outer, name] = inner.get? name := by
  simp [at?, h]

/-- Every figure stands under its name. -/
theorem Figures.get?_toJson {figures : Figures} {name : String} {size : Nat}
    (h : (name, size) ∈ figures.entries) : figures.toJson.get? name = some (.int size) := by
  have hnames : (["functions", "external_functions", "total_edges", "direct_calls",
      "function_pointer_calls", "callback_edges", "unresolved_calls", "recursive_sccs",
      "self_recursive_functions", "reachable", "direct", "indirect_only", "unreachable"].map
      Text.Wide.whole).Nodup := by
    decide
  refine Table.lookup_of_mem ?_ (List.mem_map_of_mem h)
  exact hnames

namespace Result

variable {m earlier : Model} {r : Result}

/-- A summary is made of the figures that a reading shows. -/
theorem summarize_fst (m : Model) (r : Result) :
    (r.summarize m).1 = r.summary m (r.figures m).1 := by
  unfold summarize figures
  cases r.kept <;> rfl

/-- A function is marked if direct calls alone do not lead to it. -/
theorem Owned.reachableLine_eq (h : r.Owned m) (hm : m.Coherent) (painter : Painter)
    {f : FunctionId} (hf : f ∈ r.reachable) :
    r.reachableLine m painter false f =
      "+++" ++ m.name f ++ if f ∈ r.direct then "" else "  (indirect)" := by
  have hindirect : r.onlyIndirect m ⊆ m.members r.program := by
    intro g hg
    rw [onlyIndirect, Model.mem_sorted, h.diff_eq hm] at hg
    exact h.members (List.mem_filter.1 hg).1
  have hmark : m.contains (r.onlyIndirect m) f = true ↔ f ∉ r.direct := by
    rw [hm.contains_iff hindirect (h.members hf), onlyIndirect, Model.mem_sorted, h.diff_eq hm]
    simp [hf]
  by_cases hdirect : f ∈ r.direct <;> simp [reachableLine, paint, hmark, hdirect]

theorem Owned.keeping (h : r.Owned m) (kept : Option Figures) : Owned m { r with kept } :=
  ⟨h.entry, h.nodup, h.defined, h.direct_nodup, h.direct_subset⟩

/-- While the defined functions are those on which the figures were measured, the
reports divide them. -/
theorem Owned.reports (h : r.Owned m) (hm : m.Coherent) (hthen : r.Owned earlier)
    (hearlier : earlier.Coherent) (hdefined : earlier.defined r.program = m.defined r.program)
    (hfigures : (r.figures m).1 = (r.measure earlier).1) :
    r.Reports m (m.sorted r.reachable) (r.unreachable m) := by
  have hsorted := m.sorted_perm r.reachable
  have hlisted : (m.sorted r.reachable ++ r.unreachable m).Perm (m.defined r.program) :=
    (hsorted.append_right _).trans (h.perm_defined hm)
  have hsummary : (r.summarize m).1 = r.summary m (r.measure earlier).1 := by
    rw [summarize_fst, hfigures]
  have hunreachable : r.unreachable earlier = r.unreachable m := by
    rw [hthen.unreachable_eq hearlier, h.unreachable_eq hm, hdefined]
  have hindirect : (earlier.diff r.reachable r.direct).length =
      ((m.sorted r.reachable).filter (· ∉ r.direct)).length := by
    rw [hthen.diff_eq hearlier]
    exact (hsorted.filter _).length_eq.symm
  refine
    { covers := fun f => ?_
      disjoint := fun f hf => ?_
      found_perm := hsorted
      increasing := List.pairwise_map.2 (hm.pairwise_sorted h.members h.nodup)
      rest_eq := h.unreachable_eq hm
      unreachable_eq := rfl
      once := fun f => ?_
      text := ?_
      reachable := ?_
      unreachable := ?_
      onlyIndirect := ?_
      counts := ?_
      statistics := ?_
      length_direct := ?_ }
  · rw [← (h.perm_defined hm).mem_iff, List.mem_append]
  · rw [h.unreachable_eq hm] at hf
    simp [hf.1] at hf
  · rw [(hlisted.nodup_iff.2 hm.nodup_defined).count]
    simp only [hlisted.mem_iff]
  · intro painter
    have hlines : (m.sorted r.reachable).map (r.reachableLine m painter false) =
        (m.sorted r.reachable).map fun f =>
          "+++" ++ m.name f ++ if f ∈ r.direct then "" else "  (indirect)" :=
      List.map_congr_left fun f hf => h.reachableLine_eq hm painter (Model.mem_sorted.1 hf)
    simp [render, listing, hlines, paint]
  · rw [hsummary]
    rfl
  · rw [hsummary]
    rfl
  · rw [hsummary, ← hm.sorted_filter h.members h.nodup, ← h.diff_eq hm]
    rfl
  · intro name size hmem
    rw [← List.length_append, hlisted.length_eq, hsorted.length_eq] at hmem
    rw [hsummary, Json.at?_pair rfl]
    have hshown := List.mem_map_of_mem
      (f := fun entry : String × Nat => (Text.Wide.whole entry.1, Json.int entry.2)) hmem
    exact Table.lookup_of_mem (by simp) hshown
  · intro name size hmem
    rw [hsummary, Json.at?_pair rfl]
    apply Figures.get?_toJson
    refine List.mem_append_right _ ?_
    rwa [measure, hunreachable, hindirect, ← hsorted.length_eq]
  · have hpart := (perm_append_filter_not_mem h.direct_nodup h.nodup h.direct_subset).length_eq
    rw [List.length_append] at hpart
    rw [(hsorted.filter _).length_eq, hsorted.length_eq, hpart]

end Result

/-! ## Reports of queries -/

/-- The reports divide the program after any actions that define no function. -/
theorem Review.reports_run {s : Review} (hs : s.result.Owned s.model) (hm : s.model.Coherent)
    (hkept : s.result.kept = none) (actions : List Action)
    (hdefined : (s.run actions).model.defined s.result.program =
      s.model.defined s.result.program) :
    ∃ kept found rest, (s.run actions).result = { s.result with kept } ∧
      Result.Reports (s.run actions).model { s.result with kept } found rest := by
  obtain ⟨kept, hresult⟩ := exists_result_run hkept actions
  have hfigures := figures_run hkept actions
  rw [hresult] at hfigures
  -- Nothing was defined before the first reading either, as programs only get more functions.
  have hthen : (s.firstReading actions).model.defined s.result.program =
      (s.run actions).model.defined s.result.program := by
    obtain ⟨hbefore, hafter⟩ := defined_firstReading_grows hm s.result.program actions
    rw [← hdefined] at hbefore
    exact hafter.eq_of_length_le hbefore.length_le
  exact ⟨kept, _, _, hresult, ((owned_run hs hm actions).keeping kept).reports
    (coherent_run hm actions) ((owned_run hs hm _).keeping kept) (coherent_run hm _) hthen hfigures⟩

namespace Analysis

/-- What `main` of the small program leads to. -/
theorem answer_relay :
    answer Model.Relay.model ⟨0⟩ (scanScope Model.Relay.model ⟨0⟩ true) (.named "main") =
      .ok ⟨⟨0⟩, ⟨0⟩, [⟨0⟩, ⟨1⟩, ⟨3⟩, ⟨4⟩], [⟨0⟩, ⟨1⟩], none⟩ := by
  cbv

/-- Whatever is edited and read after a query about a consistent program: as long as
the program is at the same revision, the reports of the result divide its defined
functions. -/
theorem query_reports {a : Analysis} {w : Workspace} {entry : Entry} {r : Result}
    (hmade : w.model.Made) (hvalid : w.model.checkRefs a.program = .ok ())
    (hgraph : a.GraphWithin w) (hr : (a.query w entry).value = .ok r) (actions : List Action)
    (hsame : ((Review.run ⟨w.model, r⟩ actions).model.program a.program).revision =
      (w.model.program a.program).revision) :
    ∃ kept found rest, (Review.run ⟨w.model, r⟩ actions).result = { r with kept } ∧
      Result.Reports (Review.run ⟨w.model, r⟩ actions).model { r with kept } found rest := by
  have hm := hmade.coherent
  obtain ⟨howned, hprogram, hkept⟩ := owned_of_query hm hvalid hgraph hr
  have hentry := howned.members (howned.direct_subset howned.entry)
  have hp : w.model.HasProgram a.program :=
    hprogram ▸ (hm.hasFunction_of_mem_members hentry).2.2
  have hagree : Model.Agree a.program w.model (Review.run ⟨w.model, r⟩ actions).model := by
    rw [Review.model_run] at hsame ⊢
    exact ((Edit.steady_foldl hm hp _).2 hsame).2
  have hdefined := hagree.defined_eq
  rw [← hprogram] at hdefined
  exact Review.reports_run (s := ⟨w.model, r⟩) howned hm hkept actions hdefined

/-- The figures of the small program are read, another program is made, and the
result is written out.  Its reports list `idle` as the only function that `main`
does not reach. -/
theorem query_reports_relay :
    let w : Workspace := ⟨Model.Relay.model, #[CallGraph.build Model.Relay.model ⟨0⟩]⟩
    let r : Result := ⟨⟨0⟩, ⟨0⟩, [⟨0⟩, ⟨1⟩, ⟨3⟩, ⟨4⟩], [⟨0⟩, ⟨1⟩], none⟩
    let s : Review := Review.run ⟨w.model, r⟩
      [.look .figures, .edit (.newProgram "other"), .look (.report .terminal .json false)]
    (query ⟨⟨0⟩, some ⟨0⟩, true, true⟩ w (.named "main")).value = .ok r ∧
      ∃ kept found rest, s.result = { r with kept } ∧
        Result.Reports s.model { r with kept } found rest := by
  intro w r s
  have hm := Model.Relay.made.coherent
  have hstep : GraphInStep ⟨⟨0⟩, some ⟨0⟩, true, true⟩ w := by
    refine graphInStep_of_current rfl fun _ g hg => ?_
    obtain rfl : ⟨0⟩ = g := by simpa using hg
    exact .inr (.built Model.Relay.made)
  have hvalue : (query ⟨⟨0⟩, some ⟨0⟩, true, true⟩ w (.named "main")).value = .ok r := by
    rw [query_value_eq_fresh hstep, answer_congr hm rfl (hm.follows_scanScope rfl true)
      (hm.freshScope_sameCalls rfl rfl true true)]
    exact answer_relay
  refine ⟨hvalue, query_reports Model.Relay.made rfl (hstep.graphWithin hm rfl) hvalue _ ?_⟩
  rw [Review.model_run]
  rfl

end Analysis

end CallReach
