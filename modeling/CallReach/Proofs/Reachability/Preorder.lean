import Mathlib
import CallReach.Proofs.Reachability.LeastClosure

/-!
# The order of a walk

A walk keeps the functions that are still to be looked at on a stack, on which
a function may stand several times, and which it may find long before its turn
comes.  `preorder` has no stack: it enters a function, then what the function
calls from left to right, and then goes on with the next root.

* `WorksOff` is the loop over the stack, one rule for each kind of round, and
  `worksOff_walk` says in how many rounds the stack is empty.
* `walk_append` is the reason why the two agree.  What a walk does with the top
  of its stack does not depend on what lies below, and what lies below sees the
  top only as functions found before.
* `mem_walk_iff` says which functions are entered when some were found before:
  those at the end of a path around all of these.
-/

namespace CallReach

variable {m : Model} {p : ProgramId} {callees : FunctionId → List FunctionId}
  {found : FunctionSet} {stack more roots : List FunctionId}

/-! ## The loop over the stack -/

/-- A stack is worked off: from the functions found before, after a number of
rounds, with the functions found then and those that were entered.  Each round
takes one function off the stack. -/
inductive WorksOff (m : Model) (callees : FunctionId → List FunctionId) :
    FunctionSet → List FunctionId → Nat → FunctionSet → List FunctionId → Prop where
  | done (found : FunctionSet) : WorksOff m callees found [] 0 found []
  | skip {found out : FunctionSet} {stack entered : List FunctionId} {f : FunctionId}
      {rounds : Nat} (hskip : m.isDeclaration f = true ∨ m.contains found f = true)
      (hrest : WorksOff m callees found stack rounds out entered) :
      WorksOff m callees found (f :: stack) (rounds + 1) out entered
  | enter {found out : FunctionSet} {stack entered : List FunctionId} {f : FunctionId}
      {rounds : Nat} (hdefined : m.isDeclaration f = false) (hnew : m.contains found f = false)
      (hrest : WorksOff m callees (found ++ [f]) (callees f ++ stack) rounds out entered) :
      WorksOff m callees found (f :: stack) (rounds + 1) out (f :: entered)

/-- The loop ends.  Each function of the stack and each callee of a function that
is entered is worth one round. -/
theorem worksOff_walk (m : Model) (callees : FunctionId → List FunctionId) (found : FunctionSet)
    (stack : List FunctionId) :
    WorksOff m callees found stack
      (stack.length + ((walk m callees found stack).flatMap callees).length)
      (found ++ walk m callees found stack) (walk m callees found stack) := by
  fun_induction walk m callees found stack with
  | case1 found =>
    simpa using WorksOff.done found
  | case2 found f stack hskip ih =>
    have hround := WorksOff.skip hskip ih
    rwa [Nat.add_right_comm, ← List.length_cons] at hround
  | case3 found f stack henter ih =>
    simp only [not_or, Bool.not_eq_true] at henter
    have hround := WorksOff.enter henter.1 henter.2 ih
    rw [List.append_assoc, List.singleton_append] at hround
    convert hround using 1
    simp only [List.length_cons, List.flatMap_cons, List.length_append]
    omega

/-! ## The recursion -/

/-- Finding functions leaves no more to be found. -/
theorem Model.length_missing_append_le (m : Model) (found more : List FunctionId) :
    (m.missing (found ++ more)).length ≤ (m.missing found).length := by
  induction more generalizing found with
  | nil => simp
  | cons f more ih =>
    rw [List.append_cons]
    exact (ih (found ++ [f])).trans (m.missing_append_length_le found f)

/-- A function that is entered leaves fewer to be found. -/
theorem Model.length_missing_enter_lt {f : FunctionId}
    (henter : ¬(m.isDeclaration f = true ∨ m.contains found f = true)) :
    (m.missing (found ++ [f])).length < (m.missing found).length := by
  simp only [not_or, Bool.not_eq_true] at henter
  refine missing_append_length_lt (fun hmem => ?_) (index_lt_of_not_isDeclaration henter.1)
  simp [contains_of_mem hmem] at henter

/-- The functions that a recursive walk enters from roots, when some are found
before.  Declarations and functions that were visited are skipped. -/
def preorder (m : Model) (callees : FunctionId → List FunctionId) (found : FunctionSet) :
    List FunctionId → List FunctionId
  | [] => []
  | f :: rest =>
      if _hskip : m.isDeclaration f = true ∨ m.contains found f = true then
        preorder m callees found rest
      else
        let below := preorder m callees (found ++ [f]) (callees f)
        f :: below ++ preorder m callees (found ++ f :: below) rest
termination_by roots => ((m.missing found).length, roots.length)
decreasing_by
  · exact Prod.Lex.right _ (by simp)
  · exact Prod.Lex.left _ _ (Model.length_missing_enter_lt _hskip)
  · refine Prod.Lex.left _ _ ?_
    rw [List.append_cons]
    exact (m.length_missing_append_le _ _).trans_lt (Model.length_missing_enter_lt _hskip)

/-- What lies deeper in the stack is looked at when all above it is done. -/
theorem walk_append :
    walk m callees found (stack ++ more) =
      walk m callees found stack ++ walk m callees (found ++ walk m callees found stack) more := by
  fun_induction walk m callees found stack with
  | case1 found => simp
  | case2 found f stack hskip ih =>
    rw [List.cons_append, walk, dif_pos hskip, ih]
  | case3 found f stack henter ih =>
    rw [List.cons_append, walk, dif_neg henter, ← List.append_assoc, ih]
    simp

/-- The loop over the stack enters what the recursion enters, in its order. -/
theorem walk_eq_preorder :
    walk m callees found stack = preorder m callees found stack := by
  fun_induction preorder m callees found stack with
  | case1 found => rw [walk]
  | case2 found f rest hskip ih => rw [walk, dif_pos hskip, ih]
  | case3 found f rest henter below ihbelow ihrest =>
    rw [walk, dif_neg henter, walk_append, ihbelow, List.append_assoc, List.singleton_append,
      ihrest]
    rfl

/-! ## What a walk enters -/

/-- A call of a defined function that was not found before. -/
def Model.CallsNew (m : Model) (found : FunctionSet) (f g : FunctionId) : Prop :=
  m.Calls f g ∧ g ∉ found

/-- A walk in a consistent program enters the functions at the end of a path of
calls from a root, on which no function was found before. -/
theorem mem_walk_iff (hm : m.Coherent) (hrefs : m.checkRefs p = .ok ())
    (hroots : roots ⊆ m.members p) (hfound : found ⊆ m.members p) {f : FunctionId} :
    f ∈ walk m m.staticCallees found roots ↔
      ∃ root ∈ roots, m.isDeclaration root = false ∧ root ∉ found ∧
        Relation.ReflTransGen (m.CallsNew found) root f := by
  have hwithin := hm.staticCallees_within hrefs
  constructor
  · refine walk_subset (S := {g | ∃ root ∈ roots, m.isDeclaration root = false ∧ root ∉ found ∧
      Relation.ReflTransGen (m.CallsNew found) root g}) ?_ ?_ f
    · exact fun root hroot hdefined hnew => ⟨root, hroot, hdefined, hnew, .refl⟩
    · rintro g ⟨root, hroot, hstart, hfresh, hpath⟩ h hh hdefined hnew
      have hcall : m.CallsNew found g h := ⟨Model.calls_iff.2 ⟨hh, hdefined⟩, hnew⟩
      exact ⟨root, hroot, hstart, hfresh, .tail hpath hcall⟩
  · rintro ⟨root, hroot, hdefined, hnew, hpath⟩
    induction hpath with
    | refl =>
      have hentered := mem_append_walk_of_mem_stack hm hwithin hfound hroots root hroot hdefined
      exact (List.mem_append.1 hentered).resolve_left hnew
    | @tail g h _ hcall ih =>
      obtain ⟨hcallee, hlater⟩ := Model.calls_iff.1 hcall.1
      have hentered :=
        mem_append_walk_of_mem_callees hm hwithin hfound hroots g ih h hcallee hlater
      exact (List.mem_append.1 hentered).resolve_left hcall.2

/-- The walk with a stack is the recursive one.  From any roots and any functions
found before, the loop comes to its end.  It adds to the functions found before
exactly those at the end of a path of calls from a root on which none of them
lies, each once, in the order of the recursion. -/
theorem walk_depthFirst (hmade : m.Made) (hvalid : m.checkRefs p = .ok ())
    (hroots : roots ⊆ m.members p) (hfound : found ⊆ m.members p) :
    let entered := walk m m.staticCallees found roots
    WorksOff m m.staticCallees found roots
        (roots.length + (entered.flatMap m.staticCallees).length) (found ++ entered) entered ∧
      entered = preorder m m.staticCallees found roots ∧ entered.Nodup ∧
      ∀ f, f ∈ entered ↔
        ∃ root ∈ roots, m.isDeclaration root = false ∧ root ∉ found ∧
          Relation.ReflTransGen (m.CallsNew found) root f :=
  ⟨worksOff_walk m m.staticCallees found roots, walk_eq_preorder, nodup_walk,
    fun _ => mem_walk_iff hmade.coherent hvalid hroots hfound⟩

namespace Fan

open Model.Relay (worker)

/-- The edits that make a program in which a function waits on the stack while
it is found elsewhere.  `main` calls `left` and `right`, `left` calls `shared` and
a declaration, `shared` calls `right`, and `right` calls `main` and `shared`. -/
def edits : List Edit :=
  [.newProgram "fan", .create ⟨0⟩ "main" worker true, .create ⟨0⟩ "left" worker true,
   .create ⟨0⟩ "right" worker true, .create ⟨0⟩ "shared" worker true,
   .create ⟨0⟩ "log" worker false,
   .newBlock ⟨0⟩ none, .newCall ⟨⟨0⟩, 0⟩ (.function ⟨1⟩) [] none .call,
   .newCall ⟨⟨0⟩, 0⟩ (.function ⟨2⟩) [] none .call,
   .newBlock ⟨1⟩ none, .newCall ⟨⟨1⟩, 0⟩ (.function ⟨3⟩) [] none .call,
   .newCall ⟨⟨1⟩, 0⟩ (.function ⟨4⟩) [] none .call,
   .newBlock ⟨2⟩ none, .newCall ⟨⟨2⟩, 0⟩ (.function ⟨0⟩) [] none .call,
   .newCall ⟨⟨2⟩, 0⟩ (.function ⟨3⟩) [] none .call,
   .newBlock ⟨3⟩ none, .newCall ⟨⟨3⟩, 0⟩ (.function ⟨2⟩) [] none .call]

/-- The model that these edits make. -/
def model : Model where
  functions := #[
    ⟨"main", worker, some [⟨"bb0", [⟨.function ⟨1⟩, some worker, [], .call⟩,
      ⟨.function ⟨2⟩, some worker, [], .call⟩]⟩], some ⟨0⟩⟩,
    ⟨"left", worker, some [⟨"bb0", [⟨.function ⟨3⟩, some worker, [], .call⟩,
      ⟨.function ⟨4⟩, some worker, [], .call⟩]⟩], some ⟨0⟩⟩,
    ⟨"right", worker, some [⟨"bb0", [⟨.function ⟨0⟩, some worker, [], .call⟩,
      ⟨.function ⟨3⟩, some worker, [], .call⟩]⟩], some ⟨0⟩⟩,
    ⟨"shared", worker, some [⟨"bb0", [⟨.function ⟨2⟩, some worker, [], .call⟩]⟩], some ⟨0⟩⟩,
    ⟨"log", worker, none, some ⟨0⟩⟩]
  programs := #[⟨"fan", 16, [("main", ⟨0⟩), ("left", ⟨1⟩), ("right", ⟨2⟩), ("shared", ⟨3⟩),
    ("log", ⟨4⟩)]⟩]

theorem made : model.Made :=
  .applyAll .empty (show Edit.applyAll .empty edits = some model from rfl)

end Fan

/-- From `main` and the declaration, with `left` found before, the loop takes seven
rounds.  It enters `right` from the stack and `shared` from there, and `shared`
finds `right` a second time. -/
theorem walk_depthFirst_fan :
    preorder Fan.model Fan.model.staticCallees [] [⟨0⟩] = [⟨0⟩, ⟨1⟩, ⟨3⟩, ⟨2⟩] ∧
      WorksOff Fan.model Fan.model.staticCallees [⟨1⟩] [⟨0⟩, ⟨4⟩] 7 [⟨1⟩, ⟨0⟩, ⟨2⟩, ⟨3⟩]
        [⟨0⟩, ⟨2⟩, ⟨3⟩] ∧
      Relation.ReflTransGen (Fan.model.CallsNew [⟨1⟩]) ⟨0⟩ ⟨3⟩ := by
  have hwalk : walk Fan.model Fan.model.staticCallees [] [⟨0⟩] = [⟨0⟩, ⟨1⟩, ⟨3⟩, ⟨2⟩] := by cbv
  have haround : walk Fan.model Fan.model.staticCallees [⟨1⟩] [⟨0⟩, ⟨4⟩] =
      [⟨0⟩, ⟨2⟩, ⟨3⟩] := by cbv
  have hmain : [⟨0⟩] ⊆ Fan.model.members ⟨0⟩ := by decide
  have hroots : [⟨0⟩, ⟨4⟩] ⊆ Fan.model.members ⟨0⟩ := by decide
  have hleft : [⟨1⟩] ⊆ Fan.model.members ⟨0⟩ := by decide
  obtain ⟨-, hpreorder, -, -⟩ := walk_depthFirst Fan.made rfl hmain (List.nil_subset _)
  obtain ⟨hworks, -, -, hpaths⟩ := walk_depthFirst Fan.made rfl hroots hleft
  rw [haround] at hworks hpaths
  refine ⟨hpreorder.symm.trans hwalk, hworks, ?_⟩
  obtain ⟨root, hroot, hdefined, -, hpath⟩ := (hpaths ⟨3⟩).1 (by decide)
  simp only [List.mem_cons, List.not_mem_nil, or_false] at hroot
  rcases hroot with rfl | rfl
  · exact hpath
  · cases hdefined

end CallReach
