import Mathlib.Data.Set.Basic
import CallReach.Reachability.Walk
import CallReach.Proofs.Model.Members

/-!
# What a walk enters

A walk enters defined functions, none of them twice and none that was found
before.  It enters nothing that the calls from its stack do not lead to, and
when it ends nothing on the stack and nothing that an entered function calls is
left out.

All of it is by the recursion of the walk, in which either the top of the stack
is skipped or it is entered and its callees are put in its place.
-/

namespace CallReach

variable {m : Model} {p : ProgramId} {callees : FunctionId → List FunctionId}
  {found : FunctionSet} {stack : List FunctionId}

/-- Direct callees that stay inside a program. -/
def CalleesWithin (m : Model) (p : ProgramId) (callees : FunctionId → List FunctionId) : Prop :=
  ∀ f ∈ m.members p, callees f ⊆ m.members p

/-! ## Nothing too much -/

/-- A walk stays inside every set that has the new functions of the stack and
the new functions that its members call. -/
theorem walk_subset {S : Set FunctionId}
    (hstack : ∀ f ∈ stack, m.isDeclaration f = false → f ∉ found → f ∈ S)
    (hcallees : ∀ f ∈ S, ∀ g ∈ callees f, m.isDeclaration g = false → g ∉ found → g ∈ S) :
    ∀ f ∈ walk m callees found stack, f ∈ S := by
  fun_induction walk m callees found stack with
  | case1 => simp
  | case2 found f stack hskip ih =>
    exact ih (fun g hg => hstack g (List.mem_cons_of_mem _ hg)) hcallees
  | case3 found f stack henter ih =>
    simp only [not_or, Bool.not_eq_true] at henter
    have hnew : f ∉ found := fun hmem => by
      simp [Model.contains_of_mem hmem] at henter
    have hf : f ∈ S := hstack f List.mem_cons_self henter.1 hnew
    have hearlier {g : FunctionId} (hg : g ∉ found ++ [f]) : g ∉ found :=
      fun hmem => hg (List.mem_append_left _ hmem)
    intro g hg
    rcases List.mem_cons.1 hg with rfl | hlater
    · exact hf
    · refine ih ?_ (fun h hh k hk hdefined hnot => hcallees h hh k hk hdefined (hearlier hnot))
        g hlater
      intro h hh hdefined hnot
      rcases List.mem_append.1 hh with hcallee | hrest
      · exact hcallees f hf h hcallee hdefined (hearlier hnot)
      · exact hstack h (List.mem_cons_of_mem _ hrest) hdefined (hearlier hnot)

theorem not_isDeclaration_of_mem_walk :
    ∀ f ∈ walk m callees found stack, m.isDeclaration f = false :=
  walk_subset (S := {f | m.isDeclaration f = false}) (fun _ _ hdefined _ => hdefined)
    (fun _ _ _ _ hdefined _ => hdefined)

theorem not_mem_found_of_mem_walk : ∀ f ∈ walk m callees found stack, f ∉ found :=
  walk_subset (S := {f | f ∉ found}) (fun _ _ _ hnew => hnew) (fun _ _ _ _ _ hnew => hnew)

theorem walk_subset_members (hcallees : CalleesWithin m p callees)
    (hstack : stack ⊆ m.members p) : walk m callees found stack ⊆ m.members p :=
  fun f hf => walk_subset (S := {f | f ∈ m.members p}) (fun _ hg _ _ => hstack hg)
    (fun g hg _ hh _ _ => hcallees g hg hh) f hf

/-- A walk enters no function twice. -/
theorem nodup_walk : (walk m callees found stack).Nodup := by
  fun_induction walk m callees found stack with
  | case1 => simp
  | case2 found f stack hskip ih => exact ih
  | case3 found f stack henter ih =>
    refine List.nodup_cons.2 ⟨fun hmem => ?_, ih⟩
    exact not_mem_found_of_mem_walk f hmem (by simp)

/-! ## Nothing left out -/

/-- After a walk the defined functions of its stack are found. -/
theorem mem_append_walk_of_mem_stack (hm : m.Coherent) (hcallees : CalleesWithin m p callees)
    (hfound : found ⊆ m.members p) (hstack : stack ⊆ m.members p) :
    ∀ f ∈ stack, m.isDeclaration f = false → f ∈ found ++ walk m callees found stack := by
  fun_induction walk m callees found stack with
  | case1 => simp
  | case2 found f stack hskip ih =>
    obtain ⟨hf, hrest⟩ := List.cons_subset.1 hstack
    intro g hg hdefined
    rcases List.mem_cons.1 hg with rfl | hlater
    · -- It is skipped, and it is no declaration, so it was found before.
      simp only [hdefined, Bool.false_eq_true, false_or] at hskip
      exact List.mem_append_left _ ((hm.contains_iff hfound hf).1 hskip)
    · exact ih hfound hrest g hlater hdefined
  | case3 found f stack henter ih =>
    obtain ⟨hf, hrest⟩ := List.cons_subset.1 hstack
    have hafter := ih (List.append_subset.2 ⟨hfound, by simpa using hf⟩)
      (List.append_subset.2 ⟨hcallees f hf, hrest⟩)
    intro g hg hdefined
    rcases List.mem_cons.1 hg with rfl | hlater
    · simp
    · simpa using hafter g (List.mem_append_right _ hlater) hdefined

/-- After a walk the defined callees of the functions that it entered are
found. -/
theorem mem_append_walk_of_mem_callees (hm : m.Coherent) (hcallees : CalleesWithin m p callees)
    (hfound : found ⊆ m.members p) (hstack : stack ⊆ m.members p) :
    ∀ f ∈ walk m callees found stack, ∀ g ∈ callees f, m.isDeclaration g = false →
      g ∈ found ++ walk m callees found stack := by
  fun_induction walk m callees found stack with
  | case1 => simp
  | case2 found f stack hskip ih => exact ih hfound (List.cons_subset.1 hstack).2
  | case3 found f stack henter ih =>
    obtain ⟨hf, hrest⟩ := List.cons_subset.1 hstack
    have hfound' : found ++ [f] ⊆ m.members p :=
      List.append_subset.2 ⟨hfound, by simpa using hf⟩
    have hstack' : callees f ++ stack ⊆ m.members p :=
      List.append_subset.2 ⟨hcallees f hf, hrest⟩
    intro g hg h hh hdefined
    rcases List.mem_cons.1 hg with rfl | hlater
    · have hcallee := mem_append_walk_of_mem_stack hm hcallees hfound' hstack' h
        (List.mem_append_left _ hh) hdefined
      simpa using hcallee
    · simpa using ih hfound' hstack' g hlater h hh hdefined

/-! ## Walks that see the same calls -/

/-- Two views of the direct callees that agree inside a program give the same
walk. -/
theorem walk_congr {other : FunctionId → List FunctionId} (hcallees : CalleesWithin m p callees)
    (hsame : ∀ f ∈ m.members p, m.isDeclaration f = false → other f = callees f)
    (hstack : stack ⊆ m.members p) :
    walk m other found stack = walk m callees found stack := by
  fun_induction walk m callees found stack with
  | case1 => rw [walk]
  | case2 found f stack hskip ih =>
    rw [walk, dif_pos hskip]
    exact ih (List.cons_subset.1 hstack).2
  | case3 found f stack henter ih =>
    obtain ⟨hf, hrest⟩ := List.cons_subset.1 hstack
    have hdefined : m.isDeclaration f = false := by
      simp only [not_or, Bool.not_eq_true] at henter
      exact henter.1
    rw [walk, dif_neg henter, hsame f hf hdefined,
      ih (List.append_subset.2 ⟨hcallees f hf, hrest⟩)]

end CallReach
