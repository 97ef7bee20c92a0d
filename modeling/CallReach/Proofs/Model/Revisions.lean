import CallReach.Proofs.Model.Members

/-!
# Revisions

A history tries edits one after the other and goes on with the model that each
of them leaves, accepted or refused.  `Bookkeeping` says what a program can rely
on at the end of every history.

* Refusals.  `Edit.apply_eq_error_iff_refused` gives the faults of an edit by what
  the model has, and not by the order of the checks.  `Edit.untouched_of_error`:
  whatever was there before a refused edit is there after it.
* One edit.  `Edit.revision_apply`: an accepted edit moves the revision of the
  program that then owns the edited function by one, and no other revision.
  `Edit.enrolled_apply`: an added function is owned by its program and stands at
  the end of its table.
* Many edits.  `Edit.steady_foldl`: revisions never go back, and a program that
  still has a revision has not changed since.

`bookkeeping_run` puts them together.
-/

namespace CallReach

namespace Edit

/-! ## Histories with refusals -/

/-- The function that an edit works on, if it is one of a function. -/
def target (m : Model) : Edit → Option FunctionId
  | newProgram _ => none
  | newFunction .. => none
  | adopt _ f => some f
  | create .. => some ⟨m.functions.size⟩
  | newBlock f _ => some f
  | newCall b .. => some b.function

/-- When an edit is refused, and why.  A program takes no second function of one
name and no function of another program, and a declaration has no blocks. -/
def Refused (m : Model) (fault : ModelFault) : Edit → Prop
  | newProgram _ => False
  | newFunction .. => False
  | adopt p f =>
      (∃ g ∈ m.members p, m.name g = m.name f) ∧ fault = .duplicate (m.name f) ∨
        (∀ g ∈ m.members p, m.name g ≠ m.name f) ∧
          ∃ q, m.owner f = some q ∧ q ≠ p ∧ fault = .ownedElsewhere (m.name f) (m.program q).name
  | create p name .. => (∃ g ∈ m.members p, m.name g = name) ∧ fault = .duplicate name
  | newBlock f _ => m.isDeclaration f = true ∧ fault = .bodyOfDeclaration (m.name f)
  | newCall .. => False

/-- The edit adds a function to a program, which is then this one. -/
inductive Adds (m : Model) : Edit → ProgramId → FunctionId → Function → Prop where
  | adopt (p : ProgramId) (f : FunctionId) :
      Adds m (.adopt p f) p f { m.function f with owner := some p }
  | create (p : ProgramId) (name : String) (type : Ty) (isDefined : Bool) :
      Adds m (.create p name type isDefined) p ⟨m.functions.size⟩
        ⟨name, type, if isDefined then some [] else none, some p⟩

/-- The model after an edit was tried: what the edit leaves, accepted or
refused. -/
def attempt (m : Model) (e : Edit) : Model :=
  if e.InScope m then (outcome e.change m).2 else m

/-- The model after edits were tried one after the other. -/
def run (edits : List Edit) : Model :=
  edits.foldl attempt .empty

theorem run_append (edits more : List Edit) :
    run (edits ++ more) = more.foldl attempt (run edits) :=
  List.foldl_append

/-! ## Refusals -/

/-- All programs are as they were, with their revisions, and so are all functions
with their blocks.  A function that nobody owns may be new. -/
structure Untouched (m left : Model) : Prop where
  programs : left.programs = m.programs
  functions : ∀ f, m.HasFunction f → left.HasFunction f ∧ left.function f = m.function f
  owners : ∀ f, left.owner f = m.owner f

theorem Untouched.refl (m : Model) : Untouched m m :=
  ⟨rfl, fun _ hf => ⟨hf, rfl⟩, fun _ => rfl⟩

theorem untouched_newFunction (m : Model) (name : String) (type : Ty) (isDefined : Bool) :
    Untouched m (m.newFunction name type isDefined).1 :=
  ⟨rfl, fun _ hf => ⟨Model.hasFunction_newFunction.2 (.inl hf),
    Model.function_newFunction_of_has hf⟩, fun _ => Model.owner_newFunction⟩

section Refusal

variable {m left : Model} {p : ProgramId} {f : FunctionId} {fault : ModelFault} {e : Edit}

/-- A refused edit leaves the model as it was, or with the function that it has
made before it was refused. -/
theorem left_of_error (h : outcome e.change m = (.error fault, left)) :
    left = m ∨ ∃ name type isDefined, left = (m.newFunction name type isDefined).1 := by
  have hadopt {m : Model} {p : ProgramId} {f : FunctionId}
      (h : outcome (Model.Change.adopt p f) m = (.error fault, left)) : left = m := by
    have hadopting : Model.Adopting m p f (.error fault, left) := h ▸ Model.adopting m p f
    cases hadopting <;> rfl
  cases e with
  | newProgram | newFunction | newCall => cases h
  | adopt p f => exact .inl (hadopt h)
  | create p name type isDefined =>
    rw [Model.outcome_create] at h
    exact .inr ⟨name, type, isDefined, hadopt h⟩
  | newBlock f name =>
    rw [Model.outcome_newBlock] at h
    split at h <;> cases h
    exact .inl rfl

/-- Whatever was there before a refused edit is there after it. -/
theorem untouched_of_error (h : outcome e.change m = (.error fault, left)) :
    Untouched m left := by
  rcases left_of_error h with rfl | ⟨name, type, isDefined, rfl⟩
  · exact .refl _
  · exact untouched_newFunction m name type isDefined

theorem exists_outcome_adopt_iff :
    (∃ left, outcome (Model.Change.adopt p f) m = (.error fault, left)) ↔
      m.find? p (m.name f) ≠ none ∧ fault = .duplicate (m.name f) ∨
        m.find? p (m.name f) = none ∧ ∃ q, m.owner f = some q ∧ q ≠ p ∧
          fault = .ownedElsewhere (m.name f) (m.program q).name := by
  have hadopting := Model.adopting m p f
  generalize outcome (Model.Change.adopt p f) m = ended at hadopting ⊢
  cases hadopting with
  | duplicate htaken => simp [htaken, eq_comm]
  | ownedElsewhere hnew howner hne => simp [hnew, howner, hne, eq_comm (b := fault)]
  | accepted hnew howner =>
    rcases howner with hfree | hown
    · simp [hnew, hfree]
    · simp [hnew, hown]

/-- The faults of an edit. -/
theorem apply_eq_error_iff_refused (hm : m.Coherent) (e : Edit) :
    e.apply m = .error fault ↔ e.Refused m fault := by
  have htaken (p : ProgramId) (name : String) :
      m.find? p name ≠ none ↔ ∃ g ∈ m.members p, m.name g = name := by
    rw [ne_eq, hm.find?_eq_none_iff]
    simp
  rw [apply_eq_error_iff]
  cases e with
  | newProgram | newFunction | newCall =>
    refine ⟨?_, False.elim⟩
    rintro ⟨left, ⟨⟩⟩
  | adopt p f =>
    show (∃ left, outcome (Model.Change.adopt p f) m = (.error fault, left)) ↔ _
    rw [exists_outcome_adopt_iff, htaken, hm.find?_eq_none_iff]
    rfl
  | create p name type isDefined =>
    have hname : (m.newFunction name type isDefined).1.name
        (m.newFunction name type isDefined).2 = name := by
      rw [Model.name, Model.function_newFunction_self]
    have howner : (m.newFunction name type isDefined).1.owner
        (m.newFunction name type isDefined).2 = none := by
      rw [Model.owner, Model.function_newFunction_self]
    rw [Model.outcome_create, exists_outcome_adopt_iff, hname, howner]
    simp only [reduceCtorEq, false_and, exists_false, and_false, or_false]
    exact and_congr_left fun _ => htaken p name
  | newBlock f name =>
    rw [Model.outcome_newBlock, Refused]
    split
    · rename_i hdeclared
      simp [hdeclared, eq_comm]
    · rename_i hdefined
      simp [hdefined]

end Refusal

section Attempt

variable {m edited : Model} {e : Edit}

theorem attempt_of_ok (hscope : e.InScope m) (happly : e.apply m = .ok edited) :
    attempt m e = edited := by
  rw [attempt, if_pos hscope, apply_eq_ok_iff.1 happly]

theorem untouched_attempt {fault : ModelFault} (happly : e.apply m = .error fault) :
    Untouched m (attempt m e) := by
  unfold attempt
  split
  · obtain ⟨left, hleft⟩ := apply_eq_error_iff.1 happly
    rw [hleft]
    exact untouched_of_error hleft
  · exact .refl m

/-- An edit that was tried changes nothing or is an accepted one: the edit itself,
or the making of a function that is then refused. -/
theorem exists_apply_attempt (m : Model) (e : Edit) :
    attempt m e = m ∨ ∃ made : Edit, made.InScope m ∧ made.apply m = .ok (attempt m e) ∧
      (made = e ∨ ∃ name type isDefined, made = .newFunction name type isDefined) := by
  by_cases hscope : e.InScope m
  · cases happly : e.apply m with
    | ok edited =>
      rw [attempt_of_ok hscope happly]
      exact .inr ⟨e, hscope, happly, .inl rfl⟩
    | error fault =>
      obtain ⟨left, hleft⟩ := apply_eq_error_iff.1 happly
      rw [attempt, if_pos hscope, hleft]
      rcases left_of_error hleft with rfl | ⟨name, type, isDefined, rfl⟩
      · exact .inl rfl
      · exact .inr ⟨.newFunction name type isDefined, trivial, rfl, .inr ⟨_, _, _, rfl⟩⟩
  · exact .inl (if_neg hscope)

/-- An edit that was tried has the effect of an accepted one or none. -/
theorem attempt_cases (m : Model) (e : Edit) : attempt m e = m ∨ m.Effect (attempt m e) := by
  rcases exists_apply_attempt m e with hsame | ⟨made, hscope, happly, -⟩
  · exact .inl hsame
  · exact .inr (Model.effect_of_apply hscope happly)

end Attempt

/-! ## One edit -/

section Step

variable {m edited : Model} {p q : ProgramId} {f : FunctionId} {e : Edit}

theorem revision_reworkBody (hm : m.Coherent) (hf : m.HasFunction f)
    {change : List Block → List Block} :
    ((m.reworkBody f change).program p).revision =
      (m.program p).revision + if m.owner f = some p then 1 else 0 := by
  rw [Model.program_reworkBody hf]
  by_cases howner : m.owner f = some p
  · have hp : m.HasProgram p := Model.hasProgram_of_mem_table (hm.mem_of_owner howner)
    rw [if_pos ⟨howner, hp⟩, if_pos howner]
  · rw [if_neg fun h => howner h.1, if_neg howner, Nat.add_zero]

/-- An accepted edit moves the revision of the program that owns the edited
function by one, and that of no other program. -/
theorem revision_apply (hm : m.Coherent) (hscope : e.InScope m) (happly : e.apply m = .ok edited)
    (p : ProgramId) :
    (edited.program p).revision =
      (m.program p).revision + if (e.target m).bind edited.owner = some p then 1 else 0 := by
  cases e with
  | newProgram name =>
    cases happly
    exact Model.program_newProgram.2
  | newFunction name type isDefined =>
    cases happly
    rfl
  | adopt q f =>
    obtain ⟨-, -, rfl⟩ := Model.adopt_eq_ok happly
    have howner : (m.attach q f).owner f = some q := by
      rw [Model.owner, Model.function_attach_self hscope.2]
    rw [Model.revision_attach hscope.1]
    simp [target, howner, eq_comm]
  | create q name type isDefined =>
    obtain ⟨-, rfl⟩ := Model.create_eq_ok happly
    have hnew : (m.newFunction name type isDefined).1.HasFunction
        (m.newFunction name type isDefined).2 := Model.hasFunction_newFunction.2 (.inr rfl)
    have howner : ((m.newFunction name type isDefined).1.attach q
        (m.newFunction name type isDefined).2).owner ⟨m.functions.size⟩ = some q := by
      show ((m.newFunction name type isDefined).1.attach q
        (m.newFunction name type isDefined).2).owner (m.newFunction name type isDefined).2 = some q
      rw [Model.owner, Model.function_attach_self hnew]
    have hprogram : (m.newFunction name type isDefined).1.HasProgram q := hscope
    rw [Model.revision_attach hprogram]
    simp [target, howner, eq_comm]
  | newBlock f name =>
    obtain ⟨-, rfl⟩ := Model.newBlock_eq_ok happly
    rw [revision_reworkBody hm hscope]
    simp [target, Model.owner_reworkBody hscope]
  | newCall b callee arguments calledType kind =>
    obtain ⟨change, rfl⟩ := Model.newCall_eq_ok happly
    rw [revision_reworkBody hm hscope.1]
    simp [target, Model.owner_reworkBody hscope.1]

/-- A function that is added to a program is as it was to be, owned by the program
and at the end of its table, and moves its revision by one. -/
theorem enrolled_apply {function : Function} (hadds : e.Adds m p f function)
    (hscope : e.InScope m) (happly : e.apply m = .ok edited) :
    edited.function f = function ∧ edited.owner f = some p ∧
      (edited.program p).table = (m.program p).table ++ [(function.name, f)] ∧
      (edited.program p).revision = (m.program p).revision + 1 := by
  cases hadds with
  | adopt p f =>
    obtain ⟨-, -, rfl⟩ := Model.adopt_eq_ok happly
    rw [Model.owner, Model.function_attach_self hscope.2, Model.program_attach_self hscope.1]
    exact ⟨rfl, rfl, rfl, rfl⟩
  | create p name type isDefined =>
    obtain ⟨-, rfl⟩ := Model.create_eq_ok happly
    have hprogram : (m.newFunction name type isDefined).1.HasProgram p := hscope
    have hself : ((m.newFunction name type isDefined).1.attach p
        (m.newFunction name type isDefined).2).function ⟨m.functions.size⟩ =
          ⟨name, type, if isDefined then some [] else none, some p⟩ := by
      refine (Model.function_attach_self (Model.hasFunction_newFunction.2 (.inr rfl))).trans ?_
      rw [Model.function_newFunction_self]
    rw [Model.owner, hself, Model.program_attach_self hprogram, Model.name,
      Model.function_newFunction_self]
    exact ⟨rfl, rfl, rfl, rfl⟩

end Step

/-! ## Many edits -/

section Run

variable {m : Model} {p : ProgramId} {f : FunctionId}

theorem coherent_foldl (hm : m.Coherent) (edits : List Edit) :
    (edits.foldl attempt m).Coherent := by
  refine List.foldlRecOn edits attempt hm fun m hm e _ => ?_
  rcases attempt_cases m e with hsame | heffect
  · rwa [hsame]
  · exact hm.effect heffect

/-- A declaration stays one, and a function with a body keeps having one. -/
theorem isDeclaration_foldl (hf : m.HasFunction f) (edits : List Edit) :
    (edits.foldl attempt m).isDeclaration f = m.isDeclaration f := by
  induction edits generalizing m with
  | nil => rfl
  | cons e rest ih =>
    rw [List.foldl_cons]
    rcases attempt_cases m e with hsame | heffect
    · rw [hsame, ih hf]
    · obtain ⟨hhas, -, hdeclared⟩ := heffect.keeps hf
      rw [ih hhas, hdeclared]

/-- Revisions never go back, and a program that still has a revision has not
changed since. -/
theorem steady_foldl (hm : m.Coherent) (hp : m.HasProgram p) (edits : List Edit) :
    (m.program p).revision ≤ ((edits.foldl attempt m).program p).revision ∧
      (((edits.foldl attempt m).program p).revision = (m.program p).revision →
        (edits.foldl attempt m).program p = m.program p ∧
          Model.Agree p m (edits.foldl attempt m)) := by
  induction edits generalizing m with
  | nil => exact ⟨Nat.le_refl _, fun _ => ⟨rfl, rfl, fun _ _ => rfl⟩⟩
  | cons e rest ih =>
    rw [List.foldl_cons]
    rcases attempt_cases m e with hsame | heffect
    · rw [hsame]
      exact ih hm hp
    · obtain ⟨hhas, hname⟩ := heffect.keeps_program hp
      obtain ⟨hle, hsteady⟩ := ih (hm.effect heffect) hhas
      have hstep := heffect.revision_le p
      refine ⟨Nat.le_trans hstep hle, fun hrevision => ?_⟩
      -- Neither the edit nor those after it have moved the revision.
      have hfirst : ((attempt m e).program p).revision = (m.program p).revision := by omega
      have hagree := hm.agree_of_effect heffect hfirst
      obtain ⟨hprogram, hlater⟩ := hsteady (by omega)
      refine ⟨hprogram.trans (hm.program_of_effect heffect hp hfirst),
        hlater.1.trans hagree.1, fun f hf => ?_⟩
      have hf' : f ∈ (attempt m e).members p := by rwa [hagree.members_eq]
      exact (hlater.2 f hf').trans (hagree.2 f hf)

end Run

end Edit

/-! ## The result -/

open Edit

/-- What holds after edits were tried one after the other. -/
structure Bookkeeping (edits : List Edit) : Prop where
  /-- The functions of a table stand under their names and are owned by its
  program. -/
  listed : ∀ p name f, (name, f) ∈ ((run edits).program p).table →
    (run edits).name f = name ∧ (run edits).owner f = some p
  /-- A function that is owned is found in its program and in no other. -/
  owned : ∀ p f, (run edits).owner f = some p →
    (run edits).find? p ((run edits).name f) = some f ∧
      ∀ q, f ∈ (run edits).members q → q = p
  /-- A declaration has no blocks and no call sites, now and later. -/
  bodiless : ∀ f more, (run edits).HasFunction f → (run edits).isDeclaration f = true →
    (run (edits ++ more)).isDeclaration f = true ∧ (run (edits ++ more)).blocks f = [] ∧
      (run (edits ++ more)).sites f = []
  /-- A refused edit leaves every program, function, block and revision as it
  was. -/
  refused : ∀ e fault, (e.apply (run edits) = .error fault ↔ e.Refused (run edits) fault) ∧
    (e.Refused (run edits) fault → Untouched (run edits) (run (edits ++ [e])))
  /-- A function that is added to a program is owned by it and stands at the end of
  its table under its name, and the revision moves by one. -/
  enrolled : ∀ (e : Edit) p f function edited, e.Adds (run edits) p f function →
    e.InScope (run edits) → e.apply (run edits) = .ok edited →
    edited.function f = function ∧ edited.owner f = some p ∧
      (edited.program p).table = ((run edits).program p).table ++ [(function.name, f)] ∧
      (edited.program p).revision = ((run edits).program p).revision + 1
  /-- An accepted edit moves the revision of the owner of its function by one,
  and no other revision. -/
  counted : ∀ e edited, e.InScope (run edits) → e.apply (run edits) = .ok edited →
    run (edits ++ [e]) = edited ∧ ∀ p, (edited.program p).revision =
      ((run edits).program p).revision +
        if (e.target (run edits)).bind edited.owner = some p then 1 else 0
  /-- A program that has the same revision later on has the same functions,
  blocks and call sites. -/
  steady : ∀ p more, (run edits).HasProgram p →
    ((run (edits ++ more)).program p).revision = ((run edits).program p).revision →
    (run (edits ++ more)).program p = (run edits).program p ∧
      ∀ f ∈ (run edits).members p, (run (edits ++ more)).function f = (run edits).function f

/-- The books are in order after every history. -/
theorem bookkeeping_run (edits : List Edit) : Bookkeeping edits := by
  have hm : (run edits).Coherent := coherent_foldl Model.coherent_empty edits
  constructor
  · intro p name f hentry
    exact ⟨hm.name_of_mem hentry, hm.owner_of_mem hentry⟩
  · intro p f howner
    have hmember : f ∈ (run edits).members p :=
      List.mem_map.2 ⟨_, hm.mem_of_owner howner, rfl⟩
    refine ⟨hm.find?_name hmember, fun q hq => ?_⟩
    have hother := (hm.hasFunction_of_mem_members hq).1
    rw [howner] at hother
    exact (Option.some.inj hother).symm
  · intro f more hf hdeclared
    rw [run_append]
    have hlater := (isDeclaration_foldl hf more).trans hdeclared
    exact ⟨hlater, Model.blocks_of_isDeclaration hlater, Model.sites_of_isDeclaration hlater⟩
  · intro e fault
    refine ⟨apply_eq_error_iff_refused hm e, fun hrefused => ?_⟩
    rw [run_append]
    exact untouched_attempt ((apply_eq_error_iff_refused hm e).2 hrefused)
  · intro e p f function edited hadds hscope happly
    exact enrolled_apply hadds hscope happly
  · intro e edited hscope happly
    rw [run_append]
    exact ⟨attempt_of_ok hscope happly, revision_apply hm hscope happly⟩
  · intro p more hp hrevision
    rw [run_append] at hrevision ⊢
    obtain ⟨hprogram, hagree⟩ := (steady_foldl hm hp more).2 hrevision
    exact ⟨hprogram, hagree.2⟩

/-- A history of two programs.  A function gets a body while nobody owns it, is
added to the first program, and is then offered to both; the second program gets
a declaration. -/
def sharedEdits : List Edit :=
  [.newProgram "first", .newProgram "second", .newFunction "f" (.scalar "void") true,
   .newBlock ⟨0⟩ none, .newCall ⟨⟨0⟩, 0⟩ (.function ⟨0⟩) [] none .invoke,
   .adopt ⟨0⟩ ⟨0⟩, .adopt ⟨0⟩ ⟨0⟩, .adopt ⟨1⟩ ⟨0⟩,
   .create ⟨1⟩ "g" (.scalar "void") false, .newBlock ⟨1⟩ none]

/-- In this history the two offers and the block of the declaration are refused,
and so is a second `g`.  Another block of the function moves the revision of the
first program only, and the second one is as it was until it gets an `h`. -/
theorem bookkeeping_run_shared :
    (Edit.newBlock ⟨1⟩ none).Refused (run sharedEdits) (.bodyOfDeclaration "g") ∧
      (Edit.adopt ⟨1⟩ ⟨0⟩).Refused (run sharedEdits) (.ownedElsewhere "f" "first") ∧
      Untouched (run sharedEdits)
        (run (sharedEdits ++ [.create ⟨1⟩ "g" (.scalar "void") true])) ∧
      ((run (sharedEdits ++ [.newBlock ⟨0⟩ none])).program ⟨0⟩).revision = 2 ∧
      (run (sharedEdits ++ [.newBlock ⟨0⟩ none])).program ⟨1⟩ =
        (run sharedEdits).program ⟨1⟩ ∧
      (run (sharedEdits ++ [.create ⟨1⟩ "h" (.scalar "void") true])).owner ⟨2⟩ = some ⟨1⟩ := by
  have hbooks := bookkeeping_run sharedEdits
  have hdeclared := (hbooks.refused (.newBlock ⟨1⟩ none) (.bodyOfDeclaration "g")).1.1 rfl
  have hoffered := (hbooks.refused (.adopt ⟨1⟩ ⟨0⟩) (.ownedElsewhere "f" "first")).1.1 rfl
  have hsecond := hbooks.refused (.create ⟨1⟩ "g" (.scalar "void") true) (.duplicate "g")
  obtain ⟨hedited, hrevision⟩ := hbooks.counted (.newBlock ⟨0⟩ none) _ (by decide) rfl
  refine ⟨hdeclared, hoffered, hsecond.2 (hsecond.1.1 rfl), ?_, ?_, ?_⟩
  · rw [hedited, hrevision]
    rfl
  · refine (hbooks.steady ⟨1⟩ [.newBlock ⟨0⟩ none] (by decide) ?_).1
    rw [hedited, hrevision]
    rfl
  · rw [(hbooks.counted (.create ⟨1⟩ "h" (.scalar "void") true) _ (by decide) rfl).1]
    exact (hbooks.enrolled _ _ _ _ _ (.create ⟨1⟩ "h" (.scalar "void") true) (by decide) rfl).2.1

end CallReach
