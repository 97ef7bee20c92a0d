import CallReach.Model.Basic

/-!
# Sets of functions

A set of functions is a list in the order of insertion, without two members
that stand for the same function of the model.  The first of two such members
stays.
-/

namespace CallReach

/-- Functions in the order in which they were found. -/
abbrev FunctionSet := List FunctionId

namespace Model

/-- Whether a function, or one that is the same, is in a set. -/
def contains (m : Model) (set : FunctionSet) (f : FunctionId) : Bool :=
  set.any fun g => m.same f g

/-- A function is found as soon as its id is in the set. -/
theorem contains_of_mem {m : Model} {set : FunctionSet} {f : FunctionId} (h : f ∈ set) :
    m.contains set f = true :=
  List.any_eq_true.2 ⟨f, h, by simp [same]⟩

/-- A set with one more function, at the end. -/
def insert (m : Model) (set : FunctionSet) (f : FunctionId) : FunctionSet :=
  if m.contains set f then set else set ++ [f]

/-- The first set with the functions of the second. -/
def union (m : Model) (set more : FunctionSet) : FunctionSet :=
  more.foldl m.insert set

/-- The functions of the first set that are not in the second. -/
def diff (m : Model) (set other : FunctionSet) : FunctionSet :=
  set.filter fun f => !m.contains other f

/-- The functions of a set by name, in the order of code points. -/
def sorted (m : Model) (set : FunctionSet) : List FunctionId :=
  set.mergeSort fun f g => m.name f ≤ m.name g

/-- The names of the functions of a set, in the order of code points. -/
def names (m : Model) (set : FunctionSet) : List String :=
  (m.sorted set).map m.name

end Model

end CallReach
