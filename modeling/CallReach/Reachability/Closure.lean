import CallReach.Reachability.Walk
import CallReach.Resolution

/-!
# Indirect closure

A queue of reachable functions, first in first out.  Each function is scanned
once for the functions that it may invoke indirectly; a new one is added with
everything that it calls directly, and all of them are queued.  The result
keeps a step for every function that was taken off the queue, from which the
log is made.
-/

namespace CallReach

/-- What a query follows: the direct callees, the index for indirect calls, and
whether functions passed as arguments count. -/
structure Scope where
  callees : FunctionId → List FunctionId
  index : TypeIndex
  callbacks : Bool

namespace Closure

/-! ## New candidates -/

/-- What candidates bring: the new ones, and all new functions with those that
they call directly, in the order of their addition. -/
structure Absorbed where
  discovered : List FunctionId
  added : List FunctionId

/-- Adds the candidates that are not reachable yet. -/
def absorb (m : Model) (scope : Scope) (reachable : FunctionSet) :
    List FunctionId → Absorbed
  | [] => ⟨[], []⟩
  | f :: rest =>
      if m.contains reachable f then absorb m scope reachable rest
      else
        let added := f :: walk m scope.callees (reachable ++ [f]) (scope.callees f)
        let after := absorb m scope (reachable ++ added) rest
        ⟨f :: after.discovered, added ++ after.added⟩

/-! ## The queue -/

/-- What happened to a function that was taken off the queue. -/
inductive Step where
  /-- It was scanned, and new functions were discovered. -/
  | scanned (f : FunctionId) (discovered : List FunctionId)
  /-- It had been scanned before. -/
  | skipped (f : FunctionId)
  /-- A call site of it is malformed. -/
  | failed (f : FunctionId)
deriving DecidableEq, Repr

/-- The end of a closure: the reachable functions, the steps, and the malformed
call site that ended it early. -/
structure Outcome where
  reachable : FunctionSet
  steps : List Step
  malformed : Option MalformedSite

/-- An outcome with one more step in front. -/
def Outcome.after (outcome : Outcome) (step : Step) : Outcome :=
  { outcome with steps := step :: outcome.steps }

/-- A function that is not of the model has no candidates. -/
theorem candidates_of_size_le {m : Model} {index : TypeIndex} {callbacks : Bool}
    {f : FunctionId} (h : m.functions.size ≤ f.index) :
    m.candidates index callbacks f = .ok [] := by
  have hsites : m.sites f = [] := by
    simp [Model.sites, Model.blocks, Model.function, Array.getD, Nat.not_lt.2 h]
  simp [Model.candidates, hsites, candidatesFrom]

/-- Scans the functions of a queue, given those that are reachable and those
that were scanned. -/
def run (m : Model) (scope : Scope) (reachable scanned : FunctionSet) :
    List FunctionId → Outcome
  | [] => ⟨reachable, [], none⟩
  | f :: queue =>
      if _hdone : m.contains scanned f = true then
        (run m scope reachable scanned queue).after (.skipped f)
      else
        match _hcalled : m.candidates scope.index scope.callbacks f with
        | .error malformed => ⟨reachable, [.failed f], some malformed⟩
        | .ok called =>
            let new := absorb m scope reachable (m.sorted called)
            (run m scope (reachable ++ new.added) (scanned ++ [f]) (queue ++ new.added)).after
              (.scanned f new.discovered)
termination_by queue => ((m.missing scanned).length, queue.length)
decreasing_by
  · exact Prod.Lex.right _ (by simp)
  · rcases Nat.lt_or_ge f.index m.functions.size with hlt | hge
    · refine Prod.Lex.left _ _ (Model.missing_append_length_lt ?_ hlt)
      exact fun hmem => _hdone (Model.contains_of_mem hmem)
    · have hnone : called = [] := by
        rw [candidates_of_size_le hge] at _hcalled
        simpa using _hcalled.symm
      rcases Nat.lt_or_eq_of_le (m.missing_append_length_le scanned f) with hlt | heq
      · exact Prod.Lex.left _ _ hlt
      · rw [heq]
        exact Prod.Lex.right _ (by simp [hnone, Model.sorted, absorb])

/-- The closure of a set of reachable functions. -/
def ofReachable (m : Model) (scope : Scope) (reachable : FunctionSet) : Outcome :=
  run m scope reachable [] (m.sorted reachable)

/-! ## Log -/

/-- The lines of a step. -/
def Step.log (m : Model) (index : TypeIndex) : Step → Log
  | scanned f discovered =>
      m.resolutionLog index f ++ discovered.map fun g =>
        ⟨.debug, .reachability, m.name f ++ " may call " ++ m.name g ++ " indirectly"⟩
  | skipped _ => []
  | failed f => m.resolutionLog index f

/-- The lines of a closure. -/
def Outcome.log (m : Model) (index : TypeIndex) (outcome : Outcome) : Log :=
  outcome.steps.flatMap (·.log m index)

end Closure

end CallReach
