import CallReach.Proofs.Reachability.Walk
import CallReach.Proofs.Resolution
import CallReach.Reachability.Closure

/-!
# The indirect closure

The closure takes functions off a queue and puts new ones at its end, so at
every moment the reachable functions are those that were scanned and those that
wait.  `Frontier` is that invariant, with what is known of either part.

* What candidates bring.  `absorb` adds each new candidate with what a walk
  from it enters, and keeps the reachable functions closed under direct calls.
* One function off the queue.  `Frontier.scan` is the step: a function whose
  candidates are found moves from the queue to the scanned ones.
* The whole run.  `run_ends` says how the queue ends: empty, or with a function
  in front whose scan fails.
-/

namespace CallReach.Closure

variable {m : Model} {p : ProgramId} {scope : Scope} {S : Set FunctionId}
  {reachable scanned : FunctionSet} {queue : List FunctionId}

/-- A scope that follows the calls of one program: direct callees stay inside,
and the index is that of the program. -/
structure Follows (m : Model) (p : ProgramId) (scope : Scope) : Prop where
  within : CalleesWithin m p scope.callees
  exact : scope.index.Exact m p

/-- A set that has the defined direct callees of its members. -/
def ClosedUnderCallees (m : Model) (scope : Scope) (S : Set FunctionId) : Prop :=
  ∀ f ∈ S, ∀ g ∈ scope.callees f, m.isDeclaration g = false → g ∈ S

/-- A set that has the candidates of its members, as far as they are found. -/
def ClosedUnderCandidates (m : Model) (scope : Scope) (S : Set FunctionId) : Prop :=
  ∀ f ∈ S, ∀ called, m.candidates scope.index scope.callbacks f = .ok called →
    ∀ g ∈ called, g ∈ S

/-! ## What candidates bring -/

/-- Candidates bring nothing that is not in a closed set around them. -/
theorem mem_of_mem_absorb (hclosed : ClosedUnderCallees m scope S) {candidates : List FunctionId}
    (hcandidates : ∀ f ∈ candidates, f ∈ S) :
    ∀ f ∈ (absorb m scope reachable candidates).added, f ∈ S := by
  induction candidates generalizing reachable with
  | nil => simp [absorb]
  | cons f rest ih =>
    have hf := hcandidates f List.mem_cons_self
    have hrest : ∀ g ∈ rest, g ∈ S := fun g hg => hcandidates g (List.mem_cons_of_mem _ hg)
    rw [absorb]
    split
    · exact ih hrest
    · intro g hg
      rcases List.mem_append.1 hg with hnew | hlater
      · rcases List.mem_cons.1 hnew with rfl | hwalked
        · exact hf
        · refine walk_subset (fun h hh hdefined _ => hclosed f hf h hh hdefined) ?_ g hwalked
          exact fun h hh k hk hdefined _ => hclosed h hh k hk hdefined
      · exact ih hrest g hlater

theorem absorb_subset_defined (hscope : Follows m p scope) {candidates : List FunctionId}
    (hcandidates : candidates ⊆ m.defined p) :
    (absorb m scope reachable candidates).added ⊆ m.defined p := by
  have hclosed : ClosedUnderCallees m scope {f | f ∈ m.defined p} := fun f hf g hg hdefined =>
    Model.mem_defined_iff.2 ⟨hscope.within f (Model.mem_defined_iff.1 hf).1 hg, hdefined⟩
  exact mem_of_mem_absorb hclosed fun f hf => hcandidates hf

/-- What candidates bring is new and comes once. -/
theorem absorb_nodup (hnodup : reachable.Nodup) {candidates : List FunctionId} :
    (reachable ++ (absorb m scope reachable candidates).added).Nodup := by
  induction candidates generalizing reachable with
  | nil => simpa [absorb] using hnodup
  | cons f rest ih =>
    rw [absorb]
    split
    · exact ih hnodup
    · rename_i hnew
      have hf : f ∉ reachable := fun hmem => hnew (Model.contains_of_mem hmem)
      have hfirst : (reachable ++ [f]).Nodup := by
        rw [List.nodup_append]
        refine ⟨hnodup, by simp, fun g hg h hh heq => hf ?_⟩
        rwa [← List.mem_singleton.1 hh, ← heq]
      have hadded : (reachable ++ f :: walk m scope.callees (reachable ++ [f])
          (scope.callees f)).Nodup := by
        rw [← List.singleton_append, ← List.append_assoc, List.nodup_append]
        refine ⟨hfirst, nodup_walk, fun g hg h hh heq => ?_⟩
        exact not_mem_found_of_mem_walk h hh (heq ▸ hg)
      rw [← List.append_assoc]
      exact ih hadded

/-- A candidate and what a walk from it enters are functions of the program. -/
theorem Follows.append_walk_subset_members (hscope : Follows m p scope)
    (hreachable : reachable ⊆ m.members p) {f : FunctionId} (hf : f ∈ m.members p) :
    reachable ++ f :: walk m scope.callees (reachable ++ [f]) (scope.callees f) ⊆
      m.members p := by
  refine List.append_subset.2 ⟨hreachable, List.cons_subset.2 ⟨hf, ?_⟩⟩
  exact walk_subset_members hscope.within (hscope.within f hf)

/-- Every candidate is reachable after it was absorbed. -/
theorem mem_of_mem_candidates (hm : m.Coherent) (hscope : Follows m p scope)
    (hreachable : reachable ⊆ m.members p) {candidates : List FunctionId}
    (hcandidates : candidates ⊆ m.defined p) :
    ∀ f ∈ candidates, f ∈ reachable ++ (absorb m scope reachable candidates).added := by
  induction candidates generalizing reachable with
  | nil => simp
  | cons f rest ih =>
    obtain ⟨hf, hrest⟩ := List.cons_subset.1 hcandidates
    have hfm := (Model.mem_defined_iff.1 hf).1
    rw [absorb]
    split
    · rename_i hcontains
      intro g hg
      rcases List.mem_cons.1 hg with rfl | hlater
      · exact List.mem_append_left _ ((hm.contains_iff hreachable hfm).1 hcontains)
      · exact ih hreachable hrest g hlater
    · have hgrown := hscope.append_walk_subset_members hreachable hfm
      intro g hg
      rcases List.mem_cons.1 hg with rfl | hlater
      · simp
      · simpa using ih hgrown hrest g hlater

/-- Absorbing candidates keeps the reachable functions closed under direct
calls. -/
theorem absorb_closed (hm : m.Coherent) (hscope : Follows m p scope)
    (hreachable : reachable ⊆ m.members p)
    (hclosed : ClosedUnderCallees m scope {f | f ∈ reachable}) {candidates : List FunctionId}
    (hcandidates : candidates ⊆ m.defined p) :
    ClosedUnderCallees m scope
      {f | f ∈ reachable ++ (absorb m scope reachable candidates).added} := by
  induction candidates generalizing reachable with
  | nil => simpa [absorb] using hclosed
  | cons f rest ih =>
    obtain ⟨hf, hrest⟩ := List.cons_subset.1 hcandidates
    have hfm := (Model.mem_defined_iff.1 hf).1
    rw [absorb]
    split
    · exact ih hreachable hclosed hrest
    · have hfirst : reachable ++ [f] ⊆ m.members p :=
        List.append_subset.2 ⟨hreachable, by simpa using hfm⟩
      have hwithin := hscope.within f hfm
      have hgrown := hscope.append_walk_subset_members hreachable hfm
      have hstep : ClosedUnderCallees m scope {g | g ∈ reachable ++ f ::
          walk m scope.callees (reachable ++ [f]) (scope.callees f)} := by
        intro g hg h hh hdefined
        rcases List.mem_append.1 hg with hold | hnew
        · exact List.mem_append_left _ (hclosed g hold h hh hdefined)
        · have hmem : h ∈ (reachable ++ [f]) ++
              walk m scope.callees (reachable ++ [f]) (scope.callees f) := by
            rcases List.mem_cons.1 hnew with rfl | hwalked
            · exact mem_append_walk_of_mem_stack hm hscope.within hfirst hwithin h hh hdefined
            · exact mem_append_walk_of_mem_callees hm hscope.within hfirst hwithin g hwalked
                h hh hdefined
          simpa using hmem
      rw [← List.append_assoc]
      exact ih hgrown hstep hrest

/-! ## One function off the queue -/

/-- The invariant of the queue.  The reachable functions are those that were
scanned and those that wait, each once.  They are closed under direct calls and
stay inside `S`, and the candidates of the scanned ones are reachable. -/
structure Frontier (m : Model) (p : ProgramId) (scope : Scope) (S : Set FunctionId)
    (reachable scanned : FunctionSet) (queue : List FunctionId) : Prop where
  split : (scanned ++ queue).Perm reachable
  nodup : reachable.Nodup
  defined : reachable ⊆ m.defined p
  bounded : ∀ f ∈ reachable, f ∈ S
  closed : ClosedUnderCallees m scope {f | f ∈ reachable}
  settled : ∀ f ∈ scanned, ∃ called,
    m.candidates scope.index scope.callbacks f = .ok called ∧ called ⊆ reachable

namespace Frontier

theorem members (h : Frontier m p scope S reachable scanned queue) :
    reachable ⊆ m.members p :=
  fun _ hf => (Model.mem_defined_iff.1 (h.defined hf)).1

/-- The front of the queue is reachable and was not scanned. -/
theorem front {f : FunctionId} (h : Frontier m p scope S reachable scanned (f :: queue)) :
    f ∈ reachable ∧ f ∉ scanned := by
  refine ⟨h.split.mem_iff.1 (by simp), fun hmem => ?_⟩
  have hnodup := h.split.nodup_iff.2 h.nodup
  rw [List.nodup_append] at hnodup
  exact hnodup.2.2 f hmem f List.mem_cons_self rfl

/-- A function that waits is never skipped. -/
theorem not_contains (hm : m.Coherent) {f : FunctionId}
    (h : Frontier m p scope S reachable scanned (f :: queue)) :
    m.contains scanned f = false := by
  have hscanned : scanned ⊆ m.members p := fun g hg =>
    h.members (h.split.mem_iff.1 (List.mem_append_left _ hg))
  rw [Bool.eq_false_iff, ne_eq, hm.contains_iff hscanned (h.members h.front.1)]
  exact h.front.2

/-- The step.  A function whose candidates are found was scanned afterwards,
and what its candidates bring waits at the end of the queue. -/
theorem scan (hm : m.Coherent) (hrefs : m.checkRefs p = .ok ()) (hscope : Follows m p scope)
    (hcallees : ClosedUnderCallees m scope S) (hcandidates : ClosedUnderCandidates m scope S)
    {f : FunctionId} {called : FunctionSet}
    (h : Frontier m p scope S reachable scanned (f :: queue))
    (hcalled : m.candidates scope.index scope.callbacks f = .ok called) :
    Frontier m p scope S
      (reachable ++ (absorb m scope reachable (m.sorted called)).added) (scanned ++ [f])
      (queue ++ (absorb m scope reachable (m.sorted called)).added) := by
  have hf : f ∈ reachable := h.front.1
  have hdefined : m.sorted called ⊆ m.defined p := fun g hg =>
    hm.candidates_subset_defined hrefs hscope.exact (h.members hf) hcalled (Model.mem_sorted.1 hg)
  have hreached := mem_of_mem_candidates hm hscope h.members hdefined
  refine ⟨?_, absorb_nodup h.nodup, ?_, ?_, absorb_closed hm hscope h.members h.closed hdefined, ?_⟩
  · have hsplit := h.split.append_right (absorb m scope reachable (m.sorted called)).added
    simpa using hsplit
  · exact List.append_subset.2 ⟨h.defined, absorb_subset_defined hscope hdefined⟩
  · intro g hg
    rcases List.mem_append.1 hg with hold | hnew
    · exact h.bounded g hold
    · refine mem_of_mem_absorb hcallees (fun k hk => ?_) g hnew
      exact hcandidates f (h.bounded f hf) called hcalled k (Model.mem_sorted.1 hk)
  · intro g hg
    rcases List.mem_append.1 hg with hold | hnew
    · obtain ⟨others, hothers, hsubset⟩ := h.settled g hold
      exact ⟨others, hothers, fun k hk => List.mem_append_left _ (hsubset hk)⟩
    · rw [List.mem_singleton.1 hnew]
      exact ⟨called, hcalled, fun k hk => hreached k (Model.mem_sorted.2 hk)⟩

end Frontier

/-! ## The whole run -/

/-- How a run ends: the queue is empty and nothing is reported, or the function
in front of it has a malformed site, which is reported. -/
def Ends (m : Model) (scope : Scope) (outcome : Outcome) (queue : List FunctionId) : Prop :=
  (queue = [] ∧ outcome.malformed = none) ∨
    ∃ f rest bad, queue = f :: rest ∧
      m.candidates scope.index scope.callbacks f = .error bad ∧ outcome.malformed = some bad

/-- The invariant holds at the end of a run, and nothing that was reachable is
lost. -/
theorem run_ends (hm : m.Coherent) (hrefs : m.checkRefs p = .ok ()) (hscope : Follows m p scope)
    (hcallees : ClosedUnderCallees m scope S) (hcandidates : ClosedUnderCandidates m scope S)
    (h : Frontier m p scope S reachable scanned queue) :
    ∃ scanned' queue',
      Frontier m p scope S (run m scope reachable scanned queue).reachable scanned' queue' ∧
      reachable ⊆ (run m scope reachable scanned queue).reachable ∧
      Ends m scope (run m scope reachable scanned queue) queue' := by
  fun_induction run m scope reachable scanned queue with
  | case1 reachable scanned =>
    exact ⟨scanned, [], h, List.Subset.refl _, .inl ⟨rfl, rfl⟩⟩
  | case2 reachable scanned f queue hdone ih =>
    rw [h.not_contains hm] at hdone
    simp at hdone
  | case3 reachable scanned f queue hnew bad hbad =>
    exact ⟨scanned, f :: queue, h, List.Subset.refl _, .inr ⟨f, queue, bad, rfl, hbad, rfl⟩⟩
  | case4 reachable scanned f queue hnew called hcalled new ih =>
    obtain ⟨scanned', queue', hfrontier, hsubset, hends⟩ :=
      ih (h.scan hm hrefs hscope hcallees hcandidates hcalled)
    exact ⟨scanned', queue', hfrontier, (List.append_subset.1 hsubset).1, hends⟩

/-- Where a closure starts: the functions that a walk has entered, all of them
waiting. -/
theorem frontier_start (hm : m.Coherent) (hscope : Follows m p scope)
    (hcallees : ClosedUnderCallees m scope S) {entry : FunctionId} (hentry : entry ∈ m.defined p)
    (hS : entry ∈ S) :
    Frontier m p scope S (walk m scope.callees [] [entry]) []
      (m.sorted (walk m scope.callees [] [entry])) := by
  have hstack : [entry] ⊆ m.members p := by
    simpa using (Model.mem_defined_iff.1 hentry).1
  refine ⟨Model.sorted_perm _, nodup_walk, ?_, ?_, ?_, by simp⟩
  · intro f hf
    exact Model.mem_defined_iff.2
      ⟨walk_subset_members hscope.within hstack hf, not_isDeclaration_of_mem_walk f hf⟩
  · refine walk_subset ?_ (fun f hf g hg hdefined _ => hcallees f hf g hg hdefined)
    intro f hf _ _
    rwa [List.mem_singleton.1 hf]
  · intro f hf g hg hdefined
    simpa using mem_append_walk_of_mem_callees hm hscope.within (List.nil_subset _) hstack f hf
      g hg hdefined

/-! ## Closures that see the same calls -/

/-- Two scopes that differ at most in the callees of functions outside a
program, or of declarations. -/
structure SameCalls (m : Model) (p : ProgramId) (scope other : Scope) : Prop where
  index : other.index = scope.index
  callbacks : other.callbacks = scope.callbacks
  callees : ∀ f ∈ m.members p, m.isDeclaration f = false → other.callees f = scope.callees f

variable {other : Scope}

theorem absorb_congr (hscope : Follows m p scope) (hsame : SameCalls m p scope other)
    {candidates : List FunctionId} (hcandidates : candidates ⊆ m.defined p) :
    absorb m other reachable candidates = absorb m scope reachable candidates := by
  induction candidates generalizing reachable with
  | nil => rfl
  | cons f rest ih =>
    obtain ⟨hf, hrest⟩ := List.cons_subset.1 hcandidates
    obtain ⟨hmember, hdefined⟩ := Model.mem_defined_iff.1 hf
    have hwalk : walk m other.callees (reachable ++ [f]) (other.callees f) =
        walk m scope.callees (reachable ++ [f]) (scope.callees f) := by
      rw [hsame.callees f hmember hdefined]
      exact walk_congr hscope.within hsame.callees (hscope.within f hmember)
    rw [absorb, absorb, hwalk]
    split
    · exact ih hrest
    · simp only [ih hrest]

/-- Scopes that see the same calls inside a program have the same run. -/
theorem run_congr (hm : m.Coherent) (hrefs : m.checkRefs p = .ok ())
    (hscope : Follows m p scope) (hsame : SameCalls m p scope other)
    (hqueue : queue ⊆ m.members p) :
    run m other reachable scanned queue = run m scope reachable scanned queue := by
  fun_induction run m scope reachable scanned queue with
  | case1 reachable scanned => rw [run]
  | case2 reachable scanned f queue hdone ih =>
    rw [run, dif_pos hdone, ih (List.cons_subset.1 hqueue).2]
  | case3 reachable scanned f queue hnew bad hbad =>
    rw [← hsame.index, ← hsame.callbacks] at hbad
    rw [run, dif_neg hnew]
    split
    · rename_i bad' hbad'
      rw [hbad] at hbad'
      rw [Except.error.inj hbad']
    · rename_i called hcalled
      simp [hbad] at hcalled
  | case4 reachable scanned f queue hnew called hcalled new ih =>
    obtain ⟨hf, hrest⟩ := List.cons_subset.1 hqueue
    have hdefined : m.sorted called ⊆ m.defined p := fun g hg =>
      hm.candidates_subset_defined hrefs hscope.exact hf hcalled (Model.mem_sorted.1 hg)
    have hadded : new.added ⊆ m.members p := fun g hg =>
      (Model.mem_defined_iff.1 (absorb_subset_defined hscope hdefined hg)).1
    have hnext := ih (List.append_subset.2 ⟨hrest, hadded⟩)
    rw [← hsame.index, ← hsame.callbacks] at hcalled
    rw [run, dif_neg hnew]
    split
    · rename_i bad hbad
      simp [hcalled] at hbad
    · rename_i called' hcalled'
      rw [hcalled] at hcalled'
      obtain rfl := Except.ok.inj hcalled'
      simp only [absorb_congr hscope hsame hdefined]
      rw [hnext]

end CallReach.Closure
