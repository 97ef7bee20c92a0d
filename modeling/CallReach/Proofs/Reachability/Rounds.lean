import Mathlib
import CallReach.Proofs.Reachability.Exploration

/-!
# The rounds of a closure

A closure takes one function off its queue in each round.  The queue is fed from
three places: it starts with the functions over direct calls, sorted by name,
and every new candidate is put at its end together with what the walk from it
enters.

* `run_rounds` is the account of a run.  What is added to the reachable functions
  is added to the queue as well, in the same order, and no round meets a function
  that was scanned before.
* `query_scans_once` reads it for a query.  Nothing is assumed of the program, and
  nothing of the call graph in use.
-/

namespace CallReach

variable {m : Model} {scope : Scope} {reachable scanned : FunctionSet}
  {queue : List FunctionId} {e : FunctionId}

namespace Closure

/-- The function that a round takes off the queue. -/
def Step.function : Step → FunctionId
  | .scanned f _ => f
  | .skipped f => f
  | .failed f => f

/-- The functions that are taken off the queue, in their order. -/
def Outcome.taken (outcome : Outcome) : List FunctionId :=
  outcome.steps.map Step.function

@[simp] theorem Outcome.taken_after (outcome : Outcome) (step : Step) :
    (outcome.after step).taken = step.function :: outcome.taken := rfl

/-- The account of a run.  The functions that it adds are put at the end of the
queue.  Those taken off it come first in the queue, and all of them are scanned,
except that the last one may have failed; then the others still wait. -/
theorem Explored.run_rounds (h : Explored m scope e reachable scanned queue) :
    ∃ added waiting,
      (Closure.run m scope reachable scanned queue).reachable = reachable ++ added ∧
      (Closure.run m scope reachable scanned queue).taken ++ waiting = queue ++ added ∧
      (∀ f, .skipped f ∉ (Closure.run m scope reachable scanned queue).steps) ∧
      ((Closure.run m scope reachable scanned queue).malformed = none → waiting = [] ∧
        ∀ f, .failed f ∉ (Closure.run m scope reachable scanned queue).steps) := by
  fun_induction Closure.run m scope reachable scanned queue with
  | case1 reachable scanned =>
    exact ⟨[], [], by simp, by simp [Outcome.taken], by simp, by simp⟩
  | case2 reachable scanned f queue hdone ih =>
    rw [h.contains_scanned] at hdone
    cases hdone
  | case3 reachable scanned f queue hnew bad hbad =>
    exact ⟨[], queue, by simp, by simp [Outcome.taken, Step.function], by simp, by simp⟩
  | case4 reachable scanned f queue hnew called hcalled new ih =>
    obtain ⟨added, waiting, hreachable, htaken, hskipped, hended⟩ := ih (h.scan hcalled)
    refine ⟨new.added ++ added, waiting, ?_, ?_, ?_, fun hnone => ?_⟩
    · rw [← List.append_assoc]
      exact hreachable
    · rw [Outcome.taken_after, List.cons_append, htaken, List.append_assoc]
      rfl
    · simpa [Outcome.after] using hskipped
    · obtain ⟨hwaiting, hfailed⟩ := hended hnone
      exact ⟨hwaiting, by simpa [Outcome.after] using hfailed⟩

end Closure

/-- The account of the closure of what a function calls directly. -/
theorem closureOf_rounds (m : Model) (scope : Scope) (e : FunctionId) :
    ∃ added waiting,
      (closureOf m scope e).reachable = directlyReachable m scope e ++ added ∧
      (closureOf m scope e).taken ++ waiting = m.sorted (directlyReachable m scope e) ++ added ∧
      (∀ f, .skipped f ∉ (closureOf m scope e).steps) ∧
      ((closureOf m scope e).malformed = none → waiting = [] ∧
        ∀ f, .failed f ∉ (closureOf m scope e).steps) :=
  (Closure.Explored.start m scope e).run_rounds

theorem distinct_closureOf (m : Model) (scope : Scope) (e : FunctionId) :
    m.Distinct (closureOf m scope e).reachable := by
  obtain ⟨scanned, queue, hexplored, -, -⟩ := closureOf_explored m scope e
  exact hexplored.distinct

namespace Analysis

variable {a : Analysis} {w : Workspace} {entry : Entry}

/-- What a query of an analysis follows. -/
def queryScope (a : Analysis) (w : Workspace) : Scope :=
  ⟨(a.refresh w).workspace.callees (a.refresh w).value, TypeIndex.ofProgram w.model a.program,
    a.callbacks⟩

/-- The lines of the rounds stand in the log of the query. -/
theorem log_closureOf_inside (hentry : entry.resolve w.model a.program = .ok e) :
    (closureOf w.model (a.queryScope w) e).log w.model (TypeIndex.ofProgram w.model a.program) <:+:
      (a.query w entry).log := by
  unfold query closureOf queryScope
  simp only [hentry]
  generalize Closure.ofReachable w.model _ _ = outcome
  cases outcome.malformed with
  | some bad =>
    rw [← List.cons_append]
    exact (List.suffix_append _ _).isInfix
  | none =>
    rw [← List.cons_append]
    exact (List.suffix_append _ _).isInfix.trans (List.prefix_append _ _).isInfix

/-- A query that returns a result returns what its closure reached. -/
theorem closureOf_of_query (hentry : entry.resolve w.model a.program = .ok e) {r : Result}
    (hr : (a.query w entry).value = .ok r) :
    (closureOf w.model (a.queryScope w) e).malformed = none ∧
      r.reachable = (closureOf w.model (a.queryScope w) e).reachable ∧
      r.direct = directlyReachable w.model (a.queryScope w) e := by
  rw [query_value, ← queryScope] at hr
  cases hmalformed : (closureOf w.model (a.queryScope w) e).malformed with
  | some bad =>
    rw [answer_eq_malformed hentry hmalformed] at hr
    cases hr
  | none =>
    rw [answer_eq_ok hentry hmalformed] at hr
    cases hr
    exact ⟨rfl, rfl, rfl⟩

/-- Every function that a query reaches is scanned once.  The closure of a query
never takes the same function off its queue twice, so it ends after as many rounds
as there are reachable functions at most.  In a query that returns a result the
rounds are as many as the reachable functions, each of them scans its function,
and the functions are taken in this order: those over direct calls by name, then
the others as they were added. -/
theorem query_scans_once (hentry : entry.resolve w.model a.program = .ok e) :
    let outcome := closureOf w.model (a.queryScope w) e
    outcome.log w.model (TypeIndex.ofProgram w.model a.program) <:+: (a.query w entry).log ∧
      w.model.Distinct outcome.taken ∧ (∀ f, .skipped f ∉ outcome.steps) ∧
      outcome.steps.length ≤ outcome.reachable.length ∧
      ∀ r, (a.query w entry).value = .ok r →
        r.reachable = outcome.reachable ∧ outcome.steps.length = r.reachable.length ∧
        (∀ f, f ∈ outcome.taken ↔ f ∈ r.reachable) ∧
        (∀ step ∈ outcome.steps, ∃ f discovered, step = .scanned f discovered) ∧
        ∃ added, r.reachable = r.direct ++ added ∧
          outcome.taken = w.model.sorted r.direct ++ added := by
  intro outcome
  obtain ⟨added, waiting, hreachable, htaken, hskipped, hended⟩ :=
    closureOf_rounds w.model (a.queryScope w) e
  have hperm : (outcome.taken ++ waiting).Perm outcome.reachable := by
    rw [htaken, hreachable]
    exact (Model.sorted_perm _).append_right added
  have hlength : outcome.steps.length + waiting.length = outcome.reachable.length := by
    simpa [Closure.Outcome.taken] using hperm.length_eq
  refine ⟨log_closureOf_inside hentry, ?_, hskipped, by omega, fun r hr => ?_⟩
  · have hdistinct : w.model.Distinct (outcome.taken ++ waiting) :=
      (distinct_closureOf w.model (a.queryScope w) e).of_perm hperm
    exact (List.pairwise_append.1 hdistinct).1
  · obtain ⟨hnone, hresult, hdirect⟩ := closureOf_of_query hentry hr
    obtain ⟨rfl, hfailed⟩ := hended hnone
    rw [List.append_nil] at htaken hperm
    refine ⟨hresult, ?_, fun f => ?_, fun step hstep => ?_, added, ?_, ?_⟩
    · rw [hresult]
      simpa using hlength
    · rw [hresult]
      exact hperm.mem_iff
    · cases step with
      | scanned f discovered => exact ⟨f, discovered, rfl⟩
      | skipped f => exact absurd hstep (hskipped f)
      | failed f => exact absurd hstep (hfailed f)
    · rw [hresult, hdirect, hreachable]
    · rw [hdirect, ← htaken]

/-- In the small program `main` and `step` call each other.  A query that walks the
call graph scans the four functions that it reaches from `main` in four rounds. -/
theorem query_scans_once_relay :
    let a : Analysis := ⟨⟨0⟩, none, true, true⟩
    let w : Workspace := ⟨Model.Relay.model, #[]⟩
    (Entry.named "main").resolve w.model a.program = .ok ⟨0⟩ ∧
      (a.query w (.named "main")).value =
        .ok ⟨⟨0⟩, ⟨0⟩, [⟨0⟩, ⟨1⟩, ⟨3⟩, ⟨4⟩], [⟨0⟩, ⟨1⟩], none⟩ ∧
      (closureOf w.model (a.queryScope w) ⟨0⟩).taken = [⟨0⟩, ⟨1⟩, ⟨3⟩, ⟨4⟩] ∧
      (closureOf w.model (a.queryScope w) ⟨0⟩).steps.length = 4 := by
  intro a w
  have hentry : (Entry.named "main").resolve w.model a.program = .ok ⟨0⟩ := rfl
  have hr : (a.query w (.named "main")).value =
      .ok ⟨⟨0⟩, ⟨0⟩, [⟨0⟩, ⟨1⟩, ⟨3⟩, ⟨4⟩], [⟨0⟩, ⟨1⟩], none⟩ := by
    rw [query_value]
    cbv
  obtain ⟨-, -, -, -, hsucceeds⟩ := query_scans_once hentry
  obtain ⟨-, hlength, -, -, added, hadded, htaken⟩ := hsucceeds _ hr
  obtain rfl : [⟨3⟩, ⟨4⟩] = added := by simpa using hadded
  have hsorted : w.model.sorted [⟨0⟩, ⟨1⟩] = [⟨0⟩, ⟨1⟩] := by cbv
  rw [hsorted] at htaken
  exact ⟨hentry, hr, htaken, hlength⟩

end Analysis

end CallReach
