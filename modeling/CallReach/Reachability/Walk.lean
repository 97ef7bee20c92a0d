import CallReach.Model.FunctionSet

/-!
# Walking direct calls

A depth-first walk with an explicit stack, over an arbitrary view of the direct
callees.  Declarations are not entered, and a function that was found before is
not entered again.  `walk` returns the functions that it enters, in the order
of entering; the functions found before and these are found afterwards.

The walk ends because every function that is entered was not found before: the
measure is the number of functions of the model not yet found, and then the
height of the stack.
-/

namespace CallReach

namespace Model

/-- The functions of the model that are not in a list. -/
def missing (m : Model) (found : List FunctionId) : List Nat :=
  (List.range m.functions.size).filter fun i => !found.contains ⟨i⟩

/-- A function with a body is a function of the model. -/
theorem index_lt_of_not_isDeclaration {m : Model} {f : FunctionId}
    (h : m.isDeclaration f = false) : f.index < m.functions.size := by
  rcases Nat.lt_or_ge f.index m.functions.size with hlt | hge
  · exact hlt
  · simp [isDeclaration, function, Array.getD, Nat.not_lt.2 hge] at h

theorem missing_append (m : Model) (found : List FunctionId) (f : FunctionId) :
    m.missing (found ++ [f]) = (m.missing found).filter fun i => i ≠ f.index := by
  simp only [missing, List.filter_filter]
  refine List.filter_congr fun i _ => ?_
  by_cases h : i = f.index <;> simp [h, FunctionId.ext_iff]

/-- A new function of the model leaves fewer to be found. -/
theorem missing_append_length_lt {m : Model} {found : List FunctionId} {f : FunctionId}
    (hnew : f ∉ found) (hindex : f.index < m.functions.size) :
    (m.missing (found ++ [f])).length < (m.missing found).length := by
  rw [missing_append, List.length_filter_lt_length_iff_exists]
  exact ⟨f.index, by simp [missing, hindex, hnew], by simp⟩

/-- No function leaves more to be found. -/
theorem missing_append_length_le (m : Model) (found : List FunctionId) (f : FunctionId) :
    (m.missing (found ++ [f])).length ≤ (m.missing found).length := by
  rw [missing_append]
  exact List.length_filter_le _ _

end Model

/-- The functions that a walk enters from a stack, when some are found before. -/
def walk (m : Model) (callees : FunctionId → List FunctionId) (found : FunctionSet) :
    List FunctionId → List FunctionId
  | [] => []
  | f :: stack =>
      if _hskip : m.isDeclaration f = true ∨ m.contains found f = true then
        walk m callees found stack
      else f :: walk m callees (found ++ [f]) (callees f ++ stack)
termination_by stack => ((m.missing found).length, stack.length)
decreasing_by
  · exact Prod.Lex.right _ (by simp)
  · refine Prod.Lex.left _ _ (Model.missing_append_length_lt ?_ ?_)
    · exact fun hmem => _hskip (.inr (Model.contains_of_mem hmem))
    · exact Model.index_lt_of_not_isDeclaration (by simp_all)

/-- The functions called by the call sites of a function. -/
def Model.staticCallees (m : Model) (f : FunctionId) : List FunctionId :=
  (m.sites f).filterMap fun (_, site) =>
    match site.callee with
    | .function g => some g
    | _ => none

end CallReach
