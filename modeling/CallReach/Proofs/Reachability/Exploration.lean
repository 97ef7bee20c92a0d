import CallReach.Proofs.Reachability.LeastClosure

/-!
# What a query finds in any program

Nothing is assumed here about the program or about the direct callees that a
query follows.  Call sites may refer to functions of other programs, two ids may
stand for the same function, and a call graph may show calls that are not there.

* Two ids that stand for the same function are never both found: `Distinct` is
  kept by walks and by absorbing candidates.
* `Explored` is the invariant of the queue.  Since no two found functions are the
  same, none is skipped, so the found functions are those that were scanned and
  those that wait.
* `closureOf_malformed_eq_none_iff` is the result: a query meets a malformed call
  site exactly when a function that it finds has one.
-/

namespace CallReach

variable {m : Model} {scope : Scope} {callees : FunctionId → List FunctionId}
  {found reachable scanned : FunctionSet} {stack queue : List FunctionId} {e f g : FunctionId}

/-! ## Functions that are the same -/

namespace Model

theorem same_comm (m : Model) (f g : FunctionId) : m.same f g = m.same g f := by
  simp [same, eq_comm]

/-- No two functions of a list are the same. -/
def Distinct (m : Model) (set : FunctionSet) : Prop :=
  set.Pairwise fun f g => m.same f g = false

theorem contains_eq_false_iff {set : FunctionSet} :
    m.contains set f = false ↔ ∀ g ∈ set, m.same f g = false := by
  simp [contains]

theorem contains_append_left {set more : FunctionSet} (h : m.contains set f = true) :
    m.contains (set ++ more) f = true := by
  rw [contains, List.any_append, Bool.or_eq_true]
  exact .inl h

theorem Distinct.append_singleton {set : FunctionSet} (hset : m.Distinct set)
    (hnew : m.contains set f = false) : m.Distinct (set ++ [f]) := by
  refine List.pairwise_append.2 ⟨hset, List.pairwise_singleton _ _, fun g hg h hh => ?_⟩
  rw [List.mem_singleton.1 hh, same_comm]
  exact contains_eq_false_iff.1 hnew g hg

theorem Distinct.of_perm {set other : FunctionSet} (hset : m.Distinct set)
    (hperm : other.Perm set) : m.Distinct other := by
  refine (hperm.pairwise_iff fun {a b} hab => ?_).2 hset
  rwa [same_comm]

end Model

/-! ## Walks -/

theorem distinct_append_walk (hfound : m.Distinct found) :
    m.Distinct (found ++ walk m callees found stack) := by
  fun_induction walk m callees found stack with
  | case1 => simpa using hfound
  | case2 found f stack hskip ih => exact ih hfound
  | case3 found f stack henter ih =>
    simp only [not_or, Bool.not_eq_true] at henter
    simpa using ih (hfound.append_singleton henter.2)

/-- After a walk the defined functions of its stack are found, or functions that
are the same. -/
theorem contains_append_walk_of_mem_stack :
    ∀ f ∈ stack, m.isDeclaration f = false →
      m.contains (found ++ walk m callees found stack) f = true := by
  fun_induction walk m callees found stack with
  | case1 => simp
  | case2 found f stack hskip ih =>
    intro g hg hdefined
    rcases List.mem_cons.1 hg with rfl | hlater
    · simp only [hdefined, Bool.false_eq_true, false_or] at hskip
      exact Model.contains_append_left hskip
    · exact ih g hlater hdefined
  | case3 found f stack henter ih =>
    intro g hg hdefined
    rcases List.mem_cons.1 hg with rfl | hlater
    · exact Model.contains_of_mem (by simp)
    · simpa using ih g (List.mem_append_right _ hlater) hdefined

/-- So are the defined callees of the functions that it entered. -/
theorem contains_append_walk_of_mem_callees :
    ∀ f ∈ walk m callees found stack, ∀ g ∈ callees f, m.isDeclaration g = false →
      m.contains (found ++ walk m callees found stack) g = true := by
  fun_induction walk m callees found stack with
  | case1 => simp
  | case2 found f stack hskip ih => exact ih
  | case3 found f stack henter ih =>
    intro g hg h hh hdefined
    rcases List.mem_cons.1 hg with rfl | hlater
    · have hcallee : m.contains
          (found ++ [g] ++ walk m callees (found ++ [g]) (callees g ++ stack)) h = true :=
        contains_append_walk_of_mem_stack h (List.mem_append_left _ hh) hdefined
      simpa using hcallee
    · simpa using ih g hlater h hh hdefined

namespace Closure

/-! ## What candidates bring -/

/-- A set of functions that has the defined direct callees of its members, or
functions that are the same. -/
def Complete (m : Model) (scope : Scope) (set : FunctionSet) : Prop :=
  ∀ f ∈ set, ∀ g ∈ scope.callees f, m.isDeclaration g = false → m.contains set g = true

theorem distinct_append_absorb {candidates : List FunctionId} (hreachable : m.Distinct reachable) :
    m.Distinct (reachable ++ (absorb m scope reachable candidates).added) := by
  induction candidates generalizing reachable with
  | nil => simpa [absorb] using hreachable
  | cons f rest ih =>
    rw [absorb]
    split
    · exact ih hreachable
    · rename_i hnew
      have hwalk : m.Distinct ((reachable ++ [f]) ++
          walk m scope.callees (reachable ++ [f]) (scope.callees f)) :=
        distinct_append_walk (hreachable.append_singleton (by simpa using hnew))
      rw [List.append_assoc, List.singleton_append] at hwalk
      simpa using ih hwalk

/-- Every candidate is reachable after it was absorbed, or one that is the
same. -/
theorem contains_of_mem_candidates {candidates : List FunctionId} :
    ∀ f ∈ candidates,
      m.contains (reachable ++ (absorb m scope reachable candidates).added) f = true := by
  induction candidates generalizing reachable with
  | nil => simp
  | cons f rest ih =>
    rw [absorb]
    split
    · rename_i hcontains
      intro g hg
      rcases List.mem_cons.1 hg with rfl | hlater
      · exact Model.contains_append_left hcontains
      · exact ih g hlater
    · intro g hg
      rcases List.mem_cons.1 hg with rfl | hlater
      · exact Model.contains_of_mem (by simp)
      · have hrest := @ih (reachable ++ f :: walk m scope.callees (reachable ++ [f])
          (scope.callees f)) g hlater
        simpa using hrest

/-- Absorbing candidates leaves no direct callee out. -/
theorem Complete.absorb {candidates : List FunctionId} (hreachable : Complete m scope reachable) :
    Complete m scope (reachable ++ (absorb m scope reachable candidates).added) := by
  induction candidates generalizing reachable with
  | nil => simpa [Closure.absorb] using hreachable
  | cons f rest ih =>
    rw [Closure.absorb]
    split
    · exact ih hreachable
    · have hstep : Complete m scope
          (reachable ++ f :: walk m scope.callees (reachable ++ [f]) (scope.callees f)) := by
        intro g hg h hh hdefined
        rcases List.mem_append.1 hg with hold | hnew
        · exact Model.contains_append_left (hreachable g hold h hh hdefined)
        · rw [List.append_cons]
          rcases List.mem_cons.1 hnew with rfl | hwalked
          · exact contains_append_walk_of_mem_stack h hh hdefined
          · exact contains_append_walk_of_mem_callees g hwalked h hh hdefined
      simpa using ih hstep

/-! ## The queue -/

/-- A function leads to the defined functions that the query takes for its
direct callees, and to its candidates. -/
def Leads (m : Model) (scope : Scope) (f g : FunctionId) : Prop :=
  (g ∈ scope.callees f ∧ m.isDeclaration g = false) ∨
    ∃ called, m.candidates scope.index scope.callbacks f = .ok called ∧ g ∈ called

/-- The invariant of the queue in any program.  The reachable functions are those
that were scanned and those that wait, no two of them are the same, and the
entry leads to all of them.  What they call directly is among them, and so are
the candidates of the scanned ones. -/
structure Explored (m : Model) (scope : Scope) (e : FunctionId)
    (reachable scanned : FunctionSet) (queue : List FunctionId) : Prop where
  split : (scanned ++ queue).Perm reachable
  distinct : m.Distinct reachable
  led : ∀ f ∈ reachable, Relation.ReflTransGen (Leads m scope) e f
  complete : Complete m scope reachable
  settled : ∀ f ∈ scanned, ∃ called, m.candidates scope.index scope.callbacks f = .ok called ∧
    ∀ g ∈ called, m.contains reachable g = true

namespace Explored

/-- A function that waits is never skipped. -/
theorem contains_scanned (h : Explored m scope e reachable scanned (f :: queue)) :
    m.contains scanned f = false := by
  have hdistinct : m.Distinct (scanned ++ f :: queue) := h.distinct.of_perm h.split
  rw [Model.contains_eq_false_iff]
  intro g hg
  rw [Model.same_comm]
  exact (List.pairwise_append.1 hdistinct).2.2 g hg f List.mem_cons_self

theorem mem_reachable (h : Explored m scope e reachable scanned (f :: queue)) :
    f ∈ reachable :=
  h.split.mem_iff.1 (by simp)

/-- The step: a function whose candidates are found moves from the queue to the
scanned ones. -/
theorem scan {called : FunctionSet} (h : Explored m scope e reachable scanned (f :: queue))
    (hcalled : m.candidates scope.index scope.callbacks f = .ok called) :
    Explored m scope e
      (reachable ++ (Closure.absorb m scope reachable (m.sorted called)).added) (scanned ++ [f])
      (queue ++ (Closure.absorb m scope reachable (m.sorted called)).added) := by
  have hclosed : ClosedUnderCallees m scope {g | Relation.ReflTransGen (Leads m scope) e g} :=
    fun g hg k hk hdefined => .tail hg (.inl ⟨hk, hdefined⟩)
  refine ⟨?_, distinct_append_absorb h.distinct, ?_, h.complete.absorb, ?_⟩
  · simpa using h.split.append_right (Closure.absorb m scope reachable (m.sorted called)).added
  · refine List.forall_mem_append.2 ⟨h.led, mem_of_mem_absorb hclosed fun g hg => ?_⟩
    exact .tail (h.led f h.mem_reachable) (.inr ⟨called, hcalled, Model.mem_sorted.1 hg⟩)
  · refine List.forall_mem_append.2 ⟨fun g hg => ?_, List.forall_mem_singleton.2 ?_⟩
    · obtain ⟨others, hothers, hcontains⟩ := h.settled g hg
      exact ⟨others, hothers, fun k hk => Model.contains_append_left (hcontains k hk)⟩
    · exact ⟨called, hcalled, fun k hk => contains_of_mem_candidates k (Model.mem_sorted.2 hk)⟩

/-- The invariant holds at the end of a run. -/
theorem run (h : Explored m scope e reachable scanned queue) :
    ∃ scanned' queue',
      Explored m scope e (run m scope reachable scanned queue).reachable scanned' queue' ∧
      reachable ⊆ (Closure.run m scope reachable scanned queue).reachable ∧
      Ends m scope (Closure.run m scope reachable scanned queue) queue' := by
  fun_induction Closure.run m scope reachable scanned queue with
  | case1 reachable scanned =>
    exact ⟨scanned, [], h, List.Subset.refl _, .inl ⟨rfl, rfl⟩⟩
  | case2 reachable scanned f queue hdone ih =>
    rw [h.contains_scanned] at hdone
    cases hdone
  | case3 reachable scanned f queue hnew bad hbad =>
    exact ⟨scanned, f :: queue, h, List.Subset.refl _, .inr ⟨f, queue, bad, rfl, hbad, rfl⟩⟩
  | case4 reachable scanned f queue hnew called hcalled new ih =>
    obtain ⟨scanned', queue', hexplored, hsubset, hends⟩ := ih (h.scan hcalled)
    exact ⟨scanned', queue', hexplored, (List.append_subset.1 hsubset).1, hends⟩

/-- Where a closure starts: a walk from the entry. -/
theorem start (m : Model) (scope : Scope) (e : FunctionId) :
    Explored m scope e (walk m scope.callees [] [e]) []
      (m.sorted (walk m scope.callees [] [e])) := by
  refine ⟨Model.sorted_perm _, ?_, ?_, ?_, by simp⟩
  · have hwalk : m.Distinct ([] ++ walk m scope.callees [] [e]) :=
      distinct_append_walk List.Pairwise.nil
    simpa using hwalk
  · refine walk_subset (S := {g | Relation.ReflTransGen (Leads m scope) e g}) ?_ ?_
    · intro g hg _ _
      rw [List.mem_singleton.1 hg]
      exact .refl
    · exact fun g hg k hk hdefined _ => .tail hg (.inl ⟨hk, hdefined⟩)
  · intro g hg k hk hdefined
    have hcallee : m.contains ([] ++ walk m scope.callees [] [e]) k = true :=
      contains_append_walk_of_mem_callees g hg k hk hdefined
    simpa using hcallee

end Explored

end Closure

/-! ## Closures -/

/-- A scan that succeeds has met no malformed call site. -/
theorem fault?_eq_none_of_candidates {index : TypeIndex} {callbacks : Bool} {called : FunctionSet}
    (h : m.candidates index callbacks f = .ok called) :
    ∀ entry ∈ m.sites f, entry.2.fault? = none :=
  (candidatesFrom_eq_ok_iff.1 h).1

/-- The closure of what a function calls directly ends as every run does. -/
theorem closureOf_explored (m : Model) (scope : Scope) (e : FunctionId) :
    ∃ scanned queue,
      Closure.Explored m scope e (closureOf m scope e).reachable scanned queue ∧
      walk m scope.callees [] [e] ⊆ (closureOf m scope e).reachable ∧
      Closure.Ends m scope (closureOf m scope e) queue :=
  (Closure.Explored.start m scope e).run

theorem mem_closureOf (he : m.isDeclaration e = false) :
    e ∈ (closureOf m scope e).reachable := by
  obtain ⟨scanned, queue, -, hsubset, -⟩ := closureOf_explored m scope e
  refine hsubset ?_
  rw [walk, dif_neg (by simp [he, Model.contains])]
  exact List.mem_cons_self

/-- The entry leads to everything that a query finds before it ends. -/
theorem closureOf_led (m : Model) (scope : Scope) (e : FunctionId) :
    ∀ f ∈ (closureOf m scope e).reachable,
      Relation.ReflTransGen (Closure.Leads m scope) e f := by
  obtain ⟨scanned, queue, hexplored, -, -⟩ := closureOf_explored m scope e
  exact hexplored.led

/-- A query that meets no malformed call site has scanned all that it found. -/
theorem closureOf_settled (hnone : (closureOf m scope e).malformed = none) :
    ∀ f ∈ (closureOf m scope e).reachable, ∃ called,
      m.candidates scope.index scope.callbacks f = .ok called ∧
        ∀ g ∈ called, m.contains (closureOf m scope e).reachable g = true := by
  obtain ⟨scanned, queue, hexplored, -, hends⟩ := closureOf_explored m scope e
  rcases hends with ⟨rfl, -⟩ | ⟨k, rest, bad, -, -, hsome⟩
  · intro f hf
    exact hexplored.settled f (by simpa using hexplored.split.mem_iff.2 hf)
  · rw [hnone] at hsome
    cases hsome

/-- Such a query leaves nothing out. -/
theorem closureOf_contains (hnone : (closureOf m scope e).malformed = none) :
    ∀ f ∈ (closureOf m scope e).reachable, ∀ g, Closure.Leads m scope f g →
      m.contains (closureOf m scope e).reachable g = true := by
  intro f hf g hleads
  rcases hleads with ⟨hcallee, hdefined⟩ | ⟨called, hcalled, hg⟩
  · obtain ⟨scanned, queue, hexplored, -, -⟩ := closureOf_explored m scope e
    exact hexplored.complete f hf g hcallee hdefined
  · obtain ⟨others, hothers, hcontains⟩ := closureOf_settled hnone f hf
    rw [hcalled] at hothers
    exact hcontains g (Except.ok.inj hothers ▸ hg)

/-- The malformed call site that a query reports is the first one of a function
that it has found. -/
theorem firstFault_of_closureOf {bad : MalformedSite}
    (hbad : (closureOf m scope e).malformed = some bad) :
    ∃ f ∈ (closureOf m scope e).reachable, FirstFault (m.sites f) bad := by
  obtain ⟨scanned, queue, hexplored, -, hends⟩ := closureOf_explored m scope e
  rcases hends with ⟨-, hnone⟩ | ⟨f, rest, other, rfl, hfault, hsome⟩
  · rw [hnone] at hbad
    cases hbad
  · obtain rfl : other = bad := Option.some.inj (hsome.symm.trans hbad)
    exact ⟨f, hexplored.mem_reachable, candidatesFrom_eq_error_iff.1 hfault⟩

/-- A query meets a malformed call site exactly when a function that it finds
has one. -/
theorem closureOf_malformed_eq_none_iff :
    (closureOf m scope e).malformed = none ↔
      ∀ f ∈ (closureOf m scope e).reachable, ∀ entry ∈ m.sites f, entry.2.fault? = none := by
  constructor
  · intro hnone f hf
    obtain ⟨called, hcalled, -⟩ := closureOf_settled hnone f hf
    exact fault?_eq_none_of_candidates hcalled
  · intro hfine
    cases hmalformed : (closureOf m scope e).malformed with
    | none => rfl
    | some bad =>
      obtain ⟨f, hf, hfault⟩ := firstFault_of_closureOf hmalformed
      obtain ⟨site, hsite, hbad⟩ := hfault.exists_not_wellFormed
      exact absurd (hfine f hf site hsite) hbad

end CallReach
