import Mathlib.Tactic.ByContra
import CallReach.Model.Edit
import CallReach.Proofs.Outcome
import CallReach.Proofs.Table

/-!
# Histories of a model

A model is made by edits, one after the other, from the empty model.  `Edit`
lists them, `Edit.apply` carries one out, and `Model.Made` says that a model is
the end of some history, in which all edits were accepted.

* What single edits do.  `function` and `program` are the two views of a model,
  and each edit has one lemma for each view.
* The invariant.  `Coherent` says that a program's table has every function
  under its own name, once, and that the functions of the table are exactly
  those that the program owns.  `Made.coherent` carries it along a history.
* What an edit leaves alone.  `agree_of_effect` says that an edit that does not
  move the revision of a program changes none of its functions.
-/

namespace CallReach

/-! ## Edits -/

/-- An edit of a model.  `create` makes a function inside a program, and
`newFunction` makes one that no program owns. -/
inductive Edit where
  | newProgram (name : String)
  | newFunction (name : String) (type : Ty) (isDefined : Bool)
  | adopt (p : ProgramId) (f : FunctionId)
  | create (p : ProgramId) (name : String) (type : Ty) (isDefined : Bool)
  | newBlock (f : FunctionId) (name : Option String)
  | newCall (b : BlockId) (callee : Callee) (arguments : List Argument) (calledType : Option Ty)
      (kind : CallMode)

namespace Model

/-- A function id that names a function. -/
def HasFunction (m : Model) (f : FunctionId) : Prop :=
  f.index < m.functions.size

/-- A program id that names a program. -/
def HasProgram (m : Model) (p : ProgramId) : Prop :=
  p.index < m.programs.size

instance (m : Model) (f : FunctionId) : Decidable (m.HasFunction f) :=
  inferInstanceAs (Decidable (f.index < m.functions.size))

instance (m : Model) (p : ProgramId) : Decidable (m.HasProgram p) :=
  inferInstanceAs (Decidable (p.index < m.programs.size))

end Model

namespace Edit

/-- The program, the function or the block that an edit works on is there.
What a new call refers to may be anything. -/
def InScope (m : Model) : Edit → Prop
  | newProgram _ => True
  | newFunction .. => True
  | adopt p f => m.HasProgram p ∧ m.HasFunction f
  | create p .. => m.HasProgram p
  | newBlock f _ => m.HasFunction f
  | newCall b .. => m.HasFunction b.function ∧ b.index < (m.blocks b.function).length

/-- An edit as a change of the model. -/
def change : Edit → Model.Change Unit
  | newProgram name => discard (.of (·.newProgram name))
  | newFunction name type isDefined => discard (.of (·.newFunction name type isDefined))
  | adopt p f => .adopt p f
  | create p name type isDefined => discard (.create p name type isDefined)
  | newBlock f name => discard (.newBlock f name)
  | newCall b callee arguments calledType kind =>
      discard (.of (·.newCall b callee arguments calledType kind))

/-- The model after an edit, or why the edit is refused. -/
def apply (m : Model) (e : Edit) : Except ModelFault Model :=
  match outcome e.change m with
  | (.ok (), edited) => .ok edited
  | (.error fault, _) => .error fault

end Edit

instance (m : Model) (e : Edit) : Decidable (e.InScope m) :=
  match e with
  | .newProgram _ | .newFunction .. => inferInstanceAs (Decidable True)
  | .adopt p f => inferInstanceAs (Decidable (m.HasProgram p ∧ m.HasFunction f))
  | .create p .. => inferInstanceAs (Decidable (m.HasProgram p))
  | .newBlock f _ => inferInstanceAs (Decidable (m.HasFunction f))
  | .newCall b .. => inferInstanceAs
      (Decidable (m.HasFunction b.function ∧ b.index < (m.blocks b.function).length))

/-- An edit is accepted when its change answers so. -/
theorem Edit.apply_eq_ok_iff {m edited : Model} {e : Edit} :
    e.apply m = .ok edited ↔ outcome e.change m = (.ok (), edited) := by
  unfold Edit.apply
  generalize outcome e.change m = ended
  obtain ⟨_ | _, _⟩ := ended <;> simp

theorem Edit.apply_eq_error_iff {m : Model} {e : Edit} {fault : ModelFault} :
    e.apply m = .error fault ↔ ∃ left, outcome e.change m = (.error fault, left) := by
  unfold Edit.apply
  generalize outcome e.change m = ended
  obtain ⟨_ | _, _⟩ := ended <;> simp

/-- The model after a list of edits, if all of them are in scope and
accepted. -/
def Edit.applyAll (m : Model) : List Edit → Option Model
  | [] => some m
  | e :: rest =>
      if e.InScope m then
        match e.apply m with
        | .ok edited => applyAll edited rest
        | .error _ => none
      else none

theorem Edit.applyAll_cons {m edited : Model} {e : Edit} (hscope : e.InScope m)
    (happly : e.apply m = .ok edited) (rest : List Edit) :
    applyAll m (e :: rest) = applyAll edited rest := by
  rw [applyAll, if_pos hscope, happly]

theorem Edit.applyAll_append {m edited : Model} {first : List Edit}
    (h : applyAll m first = some edited) (second : List Edit) :
    applyAll m (first ++ second) = applyAll edited second := by
  induction first generalizing m with
  | nil =>
    cases h
    rfl
  | cons e rest ih =>
    rw [applyAll] at h
    split at h
    · rename_i hscope
      split at h
      · rename_i next happly
        rw [List.cons_append, applyAll_cons hscope happly, ih h]
      · cases h
    · cases h

/-- A model that edits have made out of the empty one. -/
inductive Model.Made : Model → Prop where
  | empty : Made Model.empty
  | edit {m edited : Model} {e : Edit} (before : Made m) (hscope : e.InScope m)
      (happly : e.apply m = .ok edited) : Made edited

theorem Model.Made.applyAll {m edited : Model} {edits : List Edit} (hm : m.Made)
    (h : Edit.applyAll m edits = some edited) : edited.Made := by
  induction edits generalizing m with
  | nil =>
    cases h
    exact hm
  | cons e rest ih =>
    rw [Edit.applyAll] at h
    split at h
    · rename_i hscope
      split at h
      · rename_i next happly
        exact ih (hm.edit hscope happly) h
      · cases h
    · cases h

namespace Model

/-! ## What single edits do -/

section Views

variable {m : Model} {f g : FunctionId} {p q : ProgramId}

theorem function_of_not_hasFunction (h : ¬m.HasFunction f) :
    m.function f = ⟨"", .scalar "", none, none⟩ := by
  unfold HasFunction at h
  simp [function, Array.getD, h]

theorem program_of_not_hasProgram (h : ¬m.HasProgram p) : m.program p = ⟨"", 0, []⟩ := by
  unfold HasProgram at h
  simp [program, Array.getD, h]

/-- A function with an owner is a function of the model. -/
theorem hasFunction_of_owner (h : m.owner f = some p) : m.HasFunction f := by
  by_contra hnot
  simp [owner, function_of_not_hasFunction hnot] at h

/-- A program with a table entry is a program of the model. -/
theorem hasProgram_of_mem_table {entry : String × FunctionId}
    (h : entry ∈ (m.program p).table) : m.HasProgram p := by
  by_contra hnot
  simp [program_of_not_hasProgram hnot] at h

theorem function_modifyFunction_self {change : Function → Function} (h : m.HasFunction f) :
    (m.modifyFunction f change).function f = change (m.function f) := by
  unfold HasFunction at h
  simp [function, modifyFunction, Array.getD, h, Array.getElem_modify]

theorem function_modifyFunction_of_ne {change : Function → Function} (h : g ≠ f) :
    (m.modifyFunction f change).function g = m.function g := by
  have hindex : f.index ≠ g.index := fun heq => h (FunctionId.ext heq.symm)
  simp [function, modifyFunction, Array.getD, Array.getElem_modify, hindex]

theorem program_modifyProgram_self {change : Program → Program} (h : m.HasProgram p) :
    (m.modifyProgram p change).program p = change (m.program p) := by
  unfold HasProgram at h
  simp [program, modifyProgram, Array.getD, h, Array.getElem_modify]

theorem program_modifyProgram_of_ne {change : Program → Program} (h : q ≠ p) :
    (m.modifyProgram p change).program q = m.program q := by
  have hindex : p.index ≠ q.index := by
    intro heq
    cases p; cases q
    simp_all
  simp [program, modifyProgram, Array.getD, Array.getElem_modify, hindex]

/-- A new program is as empty as the id of no program, but for its name. -/
theorem program_newProgram {name : String} :
    ((m.newProgram name).1.program p).table = (m.program p).table ∧
      ((m.newProgram name).1.program p).revision = (m.program p).revision := by
  simp only [newProgram, program, Array.getD_eq_getD_getElem?, Array.getElem?_push]
  split
  · rename_i hnew
    simp [hnew]
  · exact ⟨rfl, rfl⟩

@[simp]
theorem program_newFunction {name : String} {type : Ty} {isDefined : Bool} :
    (m.newFunction name type isDefined).1.program p = m.program p := rfl

theorem function_newFunction_of_has {name : String} {type : Ty} {isDefined : Bool}
    (h : m.HasFunction f) :
    (m.newFunction name type isDefined).1.function f = m.function f := by
  have hne : f.index ≠ m.functions.size := Nat.ne_of_lt h
  simp [newFunction, function, Array.getD_eq_getD_getElem?, Array.getElem?_push, hne]

theorem hasFunction_newFunction {name : String} {type : Ty} {isDefined : Bool} :
    (m.newFunction name type isDefined).1.HasFunction f ↔
      m.HasFunction f ∨ f = (m.newFunction name type isDefined).2 := by
  simp only [HasFunction, newFunction, Array.size_push, FunctionId.ext_iff]
  omega

/-- The new function, as it was asked for. -/
theorem function_newFunction_self {name : String} {type : Ty} {isDefined : Bool} :
    (m.newFunction name type isDefined).1.function (m.newFunction name type isDefined).2 =
      ⟨name, type, if isDefined then some [] else none, none⟩ := by
  simp [newFunction, function, Array.getD_eq_getD_getElem?]

/-- The new function has no owner, and the others keep theirs. -/
theorem owner_newFunction {name : String} {type : Ty} {isDefined : Bool} :
    (m.newFunction name type isDefined).1.owner f = m.owner f := by
  by_cases hf : m.HasFunction f
  · rw [owner, function_newFunction_of_has hf, owner]
  · rw [owner, owner, function_of_not_hasFunction hf]
    by_cases hnew : f.index = m.functions.size
    · obtain rfl : f = (m.newFunction name type isDefined).2 := FunctionId.ext hnew
      rw [function_newFunction_self]
    · have hnot : ¬(m.newFunction name type isDefined).1.HasFunction f := by
        simp only [HasFunction, newFunction, Array.size_push] at hf ⊢
        omega
      rw [function_of_not_hasFunction hnot]

/-- An owner changes no name. -/
theorem name_setOwner : (m.setOwner p f).name g = m.name g := by
  by_cases hgf : g = f
  · subst hgf
    by_cases hg : m.HasFunction g
    · rw [name, setOwner, function_modifyFunction_self hg, name]
    · have hnot : ¬(m.setOwner p g).HasFunction g := by
        simpa [HasFunction, setOwner, modifyFunction] using hg
      rw [name, name, function_of_not_hasFunction hg, function_of_not_hasFunction hnot]
  · rw [name, setOwner, function_modifyFunction_of_ne hgf, name]

@[simp]
theorem hasFunction_attach : (m.attach p f).HasFunction g ↔ m.HasFunction g := by
  simp [HasFunction, attach, advance, enter, setOwner, modifyProgram, modifyFunction]

@[simp]
theorem hasProgram_attach : (m.attach p f).HasProgram q ↔ m.HasProgram q := by
  simp [HasProgram, attach, advance, enter, setOwner, modifyProgram, modifyFunction]

theorem function_attach_self (h : m.HasFunction f) :
    (m.attach p f).function f = { m.function f with owner := some p } :=
  function_modifyFunction_self h

theorem function_attach_of_ne (h : g ≠ f) : (m.attach p f).function g = m.function g :=
  function_modifyFunction_of_ne h

theorem program_attach_self (h : m.HasProgram p) :
    (m.attach p f).program p =
      { m.program p with
        revision := (m.program p).revision + 1
        table := (m.program p).table ++ [(m.name f, f)] } := by
  have howned : (m.setOwner p f).HasProgram p := h
  have hentered : ((m.setOwner p f).enter p f).HasProgram p := by
    simpa [HasProgram, enter, modifyProgram] using howned
  rw [attach, advance, program_modifyProgram_self hentered, enter,
    program_modifyProgram_self howned, name_setOwner]
  rfl

theorem program_attach_of_ne (h : q ≠ p) : (m.attach p f).program q = m.program q :=
  (program_modifyProgram_of_ne h).trans (program_modifyProgram_of_ne h)

theorem revision_attach (hq : m.HasProgram q) :
    ((m.attach q f).program p).revision =
      (m.program p).revision + if p = q then 1 else 0 := by
  by_cases hpq : p = q
  · subst hpq
    rw [program_attach_self hq, if_pos rfl]
  · rw [program_attach_of_ne hpq, if_neg hpq, Nat.add_zero]

@[simp]
theorem function_bumpRevision : (m.bumpRevision f).function g = m.function g := by
  unfold bumpRevision
  split <;> rfl

@[simp]
theorem hasFunction_bumpRevision : (m.bumpRevision f).HasFunction g ↔ m.HasFunction g := by
  unfold bumpRevision
  split <;> rfl

@[simp]
theorem hasProgram_bumpRevision : (m.bumpRevision f).HasProgram p ↔ m.HasProgram p := by
  unfold bumpRevision
  split
  · rfl
  · simp [HasProgram, advance, modifyProgram]

/-- The revision of the owner moves by one, and that of no other program. -/
theorem program_bumpRevision :
    (m.bumpRevision f).program p =
      if m.owner f = some p ∧ m.HasProgram p then
        { m.program p with revision := (m.program p).revision + 1 }
      else m.program p := by
  unfold bumpRevision
  cases howner : m.owner f with
  | none => simp
  | some owner =>
    by_cases heq : owner = p
    · subst heq
      by_cases hp : m.HasProgram owner
      · simp [hp, advance, program_modifyProgram_self hp]
      · have hnot : ¬(m.advance owner).HasProgram owner := by
          simpa [HasProgram, advance, modifyProgram] using hp
        simp [hp, program_of_not_hasProgram hp, program_of_not_hasProgram hnot]
    · simp [heq, advance, program_modifyProgram_of_ne (Ne.symm heq)]

/-- Changes the blocks of a function and moves the revision of its owner.  The
two edits of a body are of this shape. -/
def reworkBody (m : Model) (f : FunctionId) (change : List Block → List Block) : Model :=
  (m.modifyFunction f fun function =>
    { function with body := function.body.map change }).bumpRevision f

@[simp]
theorem hasFunction_reworkBody {change : List Block → List Block} :
    (m.reworkBody f change).HasFunction g ↔ m.HasFunction g := by
  rw [reworkBody, hasFunction_bumpRevision]
  simp [HasFunction, modifyFunction]

@[simp]
theorem hasProgram_reworkBody {change : List Block → List Block} :
    (m.reworkBody f change).HasProgram p ↔ m.HasProgram p := by
  rw [reworkBody, hasProgram_bumpRevision]
  rfl

theorem function_reworkBody_self {change : List Block → List Block} (h : m.HasFunction f) :
    (m.reworkBody f change).function f =
      { m.function f with body := (m.function f).body.map change } := by
  rw [reworkBody, function_bumpRevision, function_modifyFunction_self h]

theorem function_reworkBody_of_ne {change : List Block → List Block} (h : g ≠ f) :
    (m.reworkBody f change).function g = m.function g := by
  rw [reworkBody, function_bumpRevision, function_modifyFunction_of_ne h]

theorem name_reworkBody {change : List Block → List Block} (h : m.HasFunction f) :
    (m.reworkBody f change).name g = m.name g := by
  by_cases heq : g = f
  · rw [name, heq, function_reworkBody_self h, name]
  · rw [name, function_reworkBody_of_ne heq, name]

theorem owner_reworkBody {change : List Block → List Block} (h : m.HasFunction f) :
    (m.reworkBody f change).owner g = m.owner g := by
  by_cases heq : g = f
  · rw [owner, heq, function_reworkBody_self h, owner]
  · rw [owner, function_reworkBody_of_ne heq, owner]

/-- Rework leaves the tables as they are and moves the owner's revision. -/
theorem program_reworkBody {change : List Block → List Block} (h : m.HasFunction f) :
    (m.reworkBody f change).program p =
      if m.owner f = some p ∧ m.HasProgram p then
        { m.program p with revision := (m.program p).revision + 1 }
      else m.program p := by
  have howner : (m.modifyFunction f fun function =>
      { function with body := function.body.map change }).owner f = m.owner f := by
    rw [owner, function_modifyFunction_self h, owner]
  rw [reworkBody, program_bumpRevision, howner]
  rfl

end Views

/-- What an accepted edit does, with the guards under which it is accepted. -/
inductive Effect (m : Model) : Model → Prop where
  | newProgram (name : String) : Effect m (m.newProgram name).1
  | newFunction (name : String) (type : Ty) (isDefined : Bool) :
      Effect m (m.newFunction name type isDefined).1
  | attach {p : ProgramId} {f : FunctionId} (hp : m.HasProgram p) (hf : m.HasFunction f)
      (hnew : m.find? p (m.name f) = none) (howner : m.owner f = none ∨ m.owner f = some p) :
      Effect m (m.attach p f)
  | create {p : ProgramId} {name : String} (type : Ty) (isDefined : Bool)
      (hp : m.HasProgram p) (hnew : m.find? p name = none) :
      Effect m ((m.newFunction name type isDefined).1.attach p
        (m.newFunction name type isDefined).2)
  | rework {f : FunctionId} (change : List Block → List Block) (hf : m.HasFunction f) :
      Effect m (m.reworkBody f change)

/-- What adding a function to a program answers and leaves. -/
inductive Adopting (m : Model) (p : ProgramId) (f : FunctionId) :
    Except ModelFault Unit × Model → Prop where
  | duplicate (htaken : m.find? p (m.name f) ≠ none) :
      Adopting m p f (.error (.duplicate (m.name f)), m)
  | ownedElsewhere {q : ProgramId} (hnew : m.find? p (m.name f) = none)
      (howner : m.owner f = some q) (hne : q ≠ p) :
      Adopting m p f (.error (.ownedElsewhere (m.name f) (m.program q).name), m)
  | accepted (hnew : m.find? p (m.name f) = none)
      (howner : m.owner f = none ∨ m.owner f = some p) : Adopting m p f (.ok (), m.attach p f)

/-- All checks are made before the first write. -/
theorem adopting (m : Model) (p : ProgramId) (f : FunctionId) :
    Adopting m p f (outcome (Change.adopt p f) m) := by
  rw [Change.adopt, outcome_bind, outcome_get]
  dsimp only
  cases hfind : m.find? p (m.name f) with
  | some g => exact .duplicate (by simp [hfind])
  | none =>
    cases howner : m.owner f with
    | none => exact .accepted hfind (.inl howner)
    | some q =>
      by_cases hq : q = p
      · simp only [hq, ne_eq, not_true_eq_false, if_false]
        exact .accepted hfind (.inr (hq ▸ howner))
      · simp only [hq, ne_eq, not_false_eq_true, if_true]
        exact .ownedElsewhere hfind howner hq

theorem outcome_adopt_of_free {m : Model} {p : ProgramId} {f : FunctionId}
    (hnew : m.find? p (m.name f) = none) (hfree : m.owner f = none) :
    outcome (Change.adopt p f) m = (.ok (), m.attach p f) := by
  have hadopting := adopting m p f
  generalize outcome (Change.adopt p f) m = ended at hadopting ⊢
  cases hadopting with
  | duplicate htaken => exact absurd hnew htaken
  | ownedElsewhere _ howner _ => cases hfree.symm.trans howner
  | accepted _ _ => rfl

/-- Creating a function in a program is making it and adding it. -/
theorem outcome_create (m : Model) (p : ProgramId) (name : String) (type : Ty)
    (isDefined : Bool) :
    outcome (Edit.create p name type isDefined).change m =
      outcome (Change.adopt p (m.newFunction name type isDefined).2)
        (m.newFunction name type isDefined).1 := by
  have hmake : outcome (Change.of (·.newFunction name type isDefined)) m =
      (.ok (m.newFunction name type isDefined).2, (m.newFunction name type isDefined).1) := rfl
  have hcreate : outcome (Edit.create p name type isDefined).change m =
      outcome (Change.create p name type isDefined >>= fun _ => pure ()) m := rfl
  rw [hcreate, outcome_bind, Change.create, outcome_bind, hmake]
  dsimp only
  rw [outcome_bind]
  generalize outcome (Change.adopt p _) _ = ended
  obtain ⟨_ | _, edited⟩ := ended <;> rfl

/-- What adding a block to a function answers and leaves. -/
theorem outcome_newBlock (m : Model) (f : FunctionId) (name : Option String) :
    outcome (Edit.newBlock f name).change m =
      if m.isDeclaration f then (.error (.bodyOfDeclaration (m.name f)), m)
      else (.ok (), m.reworkBody f (· ++ [⟨m.blockName f name, []⟩])) := by
  have hblock : outcome (Edit.newBlock f name).change m =
      outcome (Change.newBlock f name >>= fun _ => pure ()) m := rfl
  rw [hblock, outcome_bind, Change.newBlock, outcome_bind, outcome_get]
  dsimp only
  by_cases hdeclared : m.isDeclaration f = true
  · rw [if_pos hdeclared, if_pos hdeclared]
    rfl
  · rw [if_neg hdeclared, if_neg hdeclared]
    rfl

/-- A function is accepted by a program that has none of its name and whose
function it may become. -/
theorem adopt_eq_ok {m edited : Model} {p : ProgramId} {f : FunctionId}
    (h : (Edit.adopt p f).apply m = .ok edited) :
    m.find? p (m.name f) = none ∧ (m.owner f = none ∨ m.owner f = some p) ∧
      edited = m.attach p f := by
  have hadopting : Adopting m p f (.ok (), edited) := Edit.apply_eq_ok_iff.1 h ▸ adopting m p f
  cases hadopting with
  | accepted hnew howner => exact ⟨hnew, howner, rfl⟩

/-- A new function is accepted by a program that has none of its name. -/
theorem create_eq_ok {m edited : Model} {p : ProgramId} {name : String} {type : Ty}
    {isDefined : Bool} (h : (Edit.create p name type isDefined).apply m = .ok edited) :
    m.find? p name = none ∧
      edited = (m.newFunction name type isDefined).1.attach p
        (m.newFunction name type isDefined).2 := by
  rw [Edit.apply_eq_ok_iff, outcome_create] at h
  obtain ⟨hnew, -, rfl⟩ := adopt_eq_ok (Edit.apply_eq_ok_iff.2 h)
  rw [Model.name, function_newFunction_self] at hnew
  exact ⟨hnew, rfl⟩

/-- A block is accepted by a function that has a body. -/
theorem newBlock_eq_ok {m edited : Model} {f : FunctionId} {name : Option String}
    (h : (Edit.newBlock f name).apply m = .ok edited) :
    m.isDeclaration f = false ∧
      edited = m.reworkBody f (· ++ [⟨m.blockName f name, []⟩]) := by
  rw [Edit.apply_eq_ok_iff, outcome_newBlock] at h
  split at h
  · cases h
  · rename_i hdefined
    cases h
    exact ⟨by simpa using hdefined, rfl⟩

theorem newCall_eq_ok {m edited : Model} {b : BlockId} {callee : Callee}
    {arguments : List Argument} {calledType : Option Ty} {kind : CallMode}
    (h : (Edit.newCall b callee arguments calledType kind).apply m = .ok edited) :
    ∃ change, edited = m.reworkBody b.function change := by
  cases h
  exact ⟨_, rfl⟩

/-- Every accepted edit is one of the five effects. -/
theorem effect_of_apply {m edited : Model} {e : Edit} (hscope : e.InScope m)
    (happly : e.apply m = .ok edited) : m.Effect edited := by
  cases e with
  | newProgram name =>
    cases happly
    exact .newProgram name
  | newFunction name type isDefined =>
    cases happly
    exact .newFunction name type isDefined
  | adopt p f =>
    obtain ⟨hnew, howner, rfl⟩ := adopt_eq_ok happly
    exact .attach hscope.1 hscope.2 hnew howner
  | create p name type isDefined =>
    obtain ⟨hnew, rfl⟩ := create_eq_ok happly
    exact .create type isDefined hscope hnew
  | newBlock f name =>
    obtain ⟨-, rfl⟩ := newBlock_eq_ok happly
    exact .rework _ hscope
  | newCall b callee arguments calledType kind =>
    obtain ⟨change, rfl⟩ := newCall_eq_ok happly
    exact .rework change hscope.1

/-! ## The invariant -/

/-- Tables and owners agree.  A table has its functions under their own names,
no name twice, and has exactly the functions that the program owns. -/
structure Coherent (m : Model) : Prop where
  name_of_mem : ∀ {p name f}, (name, f) ∈ (m.program p).table → m.name f = name
  owner_of_mem : ∀ {p name f}, (name, f) ∈ (m.program p).table → m.owner f = some p
  mem_of_owner : ∀ {p f}, m.owner f = some p → (m.name f, f) ∈ (m.program p).table
  nodup_names : ∀ p, ((m.program p).table.map (·.1)).Nodup

theorem coherent_empty : Model.empty.Coherent := by
  have hprogram (p : ProgramId) : (Model.empty.program p).table = [] := by
    simp [Model.empty, program, Array.getD]
  have howner (f : FunctionId) : Model.empty.owner f = none := by
    simp [Model.empty, owner, function, Array.getD]
  constructor
  · intro p name f h
    simp [hprogram] at h
  · intro p name f h
    simp [hprogram] at h
  · intro p f h
    simp [howner] at h
  · intro p
    simp [hprogram]

namespace Coherent

variable {m : Model}

theorem newProgram (hm : m.Coherent) (name : String) : (m.newProgram name).1.Coherent := by
  constructor
  · intro p other f h
    rw [program_newProgram.1] at h
    exact hm.name_of_mem h
  · intro p other f h
    rw [program_newProgram.1] at h
    exact hm.owner_of_mem h
  · intro p f h
    rw [program_newProgram.1]
    exact hm.mem_of_owner h
  · intro p
    rw [program_newProgram.1]
    exact hm.nodup_names p

theorem newFunction (hm : m.Coherent) (name : String) (type : Ty) (isDefined : Bool) :
    (m.newFunction name type isDefined).1.Coherent := by
  -- Only owned functions stand in tables, and the new function is not owned.
  have hname {p : ProgramId} {f : FunctionId} (h : m.owner f = some p) :
      (m.newFunction name type isDefined).1.name f = m.name f := by
    rw [Model.name, function_newFunction_of_has (hasFunction_of_owner h), Model.name]
  constructor
  · intro p other f h
    rw [hname (hm.owner_of_mem h)]
    exact hm.name_of_mem h
  · intro p other f h
    rw [owner_newFunction]
    exact hm.owner_of_mem h
  · intro p f h
    rw [owner_newFunction] at h
    rw [hname h]
    exact hm.mem_of_owner h
  · exact hm.nodup_names

theorem attach (hm : m.Coherent) {p : ProgramId} {f : FunctionId} (hp : m.HasProgram p)
    (hf : m.HasFunction f) (hnew : m.find? p (m.name f) = none)
    (howner : m.owner f = none ∨ m.owner f = some p) : (m.attach p f).Coherent := by
  have hname (g : FunctionId) : (m.attach p f).name g = m.name g := by
    by_cases hgf : g = f
    · rw [Model.name, hgf, function_attach_self hf, Model.name]
    · rw [Model.name, function_attach_of_ne hgf, Model.name]
  have hself : (m.attach p f).owner f = some p := by
    rw [owner, function_attach_self hf]
  have hother {g : FunctionId} (h : g ≠ f) : (m.attach p f).owner g = m.owner g := by
    rw [owner, function_attach_of_ne h, owner]
  have htable : ((m.attach p f).program p).table =
      (m.program p).table ++ [(m.name f, f)] := by
    rw [program_attach_self hp]
  -- An entry of a table is an old one, or the new one of `p`.
  have hmem {q : ProgramId} {name : String} {g : FunctionId}
      (h : (name, g) ∈ ((m.attach p f).program q).table) :
      (name, g) ∈ (m.program q).table ∨ q = p ∧ name = m.name f ∧ g = f := by
    by_cases hqp : q = p
    · subst hqp
      simpa [htable] using h
    · rw [program_attach_of_ne hqp] at h
      exact .inl h
  constructor
  · intro q name g h
    rw [hname]
    rcases hmem h with hold | ⟨-, rfl, rfl⟩
    · exact hm.name_of_mem hold
    · rfl
  · intro q name g h
    rcases hmem h with hold | ⟨rfl, -, rfl⟩
    · by_cases hgf : g = f
      · subst hgf
        rw [hm.owner_of_mem hold] at howner
        rw [hself]
        simpa [eq_comm] using howner
      · rw [hother hgf]
        exact hm.owner_of_mem hold
    · exact hself
  · intro q g h
    rw [hname]
    by_cases hgf : g = f
    · subst hgf
      obtain rfl : p = q := Option.some.inj (hself.symm.trans h)
      simp [htable]
    · rw [hother hgf] at h
      have hold := hm.mem_of_owner h
      by_cases hqp : q = p
      · subst hqp
        rw [htable]
        exact List.mem_append_left _ hold
      · rwa [program_attach_of_ne hqp]
  · intro q
    by_cases hqp : q = p
    · subst hqp
      rw [htable]
      exact Table.nodup_keys_append (hm.nodup_names q) hnew
    · rw [program_attach_of_ne hqp]
      exact hm.nodup_names q

theorem reworkBody (hm : m.Coherent) {f : FunctionId} (hf : m.HasFunction f)
    (change : List Block → List Block) : (m.reworkBody f change).Coherent := by
  have htable (p : ProgramId) :
      ((m.reworkBody f change).program p).table = (m.program p).table := by
    rw [program_reworkBody hf]
    split <;> rfl
  constructor
  · intro p name g h
    rw [htable] at h
    rw [name_reworkBody hf]
    exact hm.name_of_mem h
  · intro p name g h
    rw [htable] at h
    rw [owner_reworkBody hf]
    exact hm.owner_of_mem h
  · intro p g h
    rw [owner_reworkBody hf] at h
    rw [name_reworkBody hf, htable]
    exact hm.mem_of_owner h
  · intro p
    rw [htable]
    exact hm.nodup_names p

/-- Every effect of an edit keeps the invariant. -/
theorem effect (hm : m.Coherent) {edited : Model} (h : m.Effect edited) : edited.Coherent := by
  cases h with
  | newProgram name => exact hm.newProgram name
  | newFunction name type isDefined => exact hm.newFunction name type isDefined
  | attach hp hf hnew howner => exact hm.attach hp hf hnew howner
  | @create p name type isDefined hp hnew =>
    refine (hm.newFunction name type isDefined).attach hp ?_ ?_ (.inl ?_)
    · exact hasFunction_newFunction.2 (.inr rfl)
    · rw [Model.name, function_newFunction_self]
      exact hnew
    · rw [owner, function_newFunction_self]
  | rework change hf => exact hm.reworkBody hf change

end Coherent

/-- Every model that edits have made is coherent. -/
theorem Made.coherent {m : Model} (h : m.Made) : m.Coherent := by
  induction h with
  | empty => exact coherent_empty
  | edit _ hscope happly ih => exact ih.effect (effect_of_apply hscope happly)

/-! ## What an edit leaves alone -/

/-- Two models have the same functions in a program. -/
def Agree (p : ProgramId) (m other : Model) : Prop :=
  (other.program p).table = (m.program p).table ∧
    ∀ f ∈ m.members p, other.function f = m.function f

namespace Coherent

variable {m : Model} {p : ProgramId}

/-- The functions of a program are functions of the model. -/
theorem hasFunction_of_mem_members (hm : m.Coherent) {f : FunctionId} (h : f ∈ m.members p) :
    m.owner f = some p ∧ m.HasFunction f ∧ m.HasProgram p := by
  obtain ⟨⟨name, g⟩, hentry, rfl⟩ := List.mem_map.1 h
  have howner := hm.owner_of_mem hentry
  exact ⟨howner, hasFunction_of_owner howner, hasProgram_of_mem_table hentry⟩

/-- A new function changes no program. -/
theorem agree_newFunction (hm : m.Coherent) (name : String) (type : Ty) (isDefined : Bool) :
    Agree p m (m.newFunction name type isDefined).1 :=
  ⟨rfl, fun _ h => function_newFunction_of_has (hm.hasFunction_of_mem_members h).2.1⟩

/-- A function that is put into another program was in none. -/
theorem agree_attach (hm : m.Coherent) {q : ProgramId} {f : FunctionId} (hqp : p ≠ q)
    (howner : m.owner f = none ∨ m.owner f = some q) : Agree p m (m.attach q f) := by
  refine ⟨by rw [program_attach_of_ne hqp], fun g hg => function_attach_of_ne ?_⟩
  intro heq
  subst heq
  rw [(hm.hasFunction_of_mem_members hg).1] at howner
  simp [hqp] at howner

/-- An edit that does not move the revision of a program changes none of its
functions. -/
theorem agree_of_effect (hm : m.Coherent) {edited : Model} (h : m.Effect edited)
    (hrevision : (edited.program p).revision = (m.program p).revision) :
    Agree p m edited := by
  cases h with
  | newProgram name => exact ⟨program_newProgram.1, fun _ _ => rfl⟩
  | newFunction name type isDefined => exact hm.agree_newFunction name type isDefined
  | @attach q f hq hf hnew howner =>
    refine hm.agree_attach ?_ howner
    intro heq
    subst heq
    rw [program_attach_self hq] at hrevision
    simp at hrevision
  | @create q name type isDefined hq hnew =>
    have hmade := hm.agree_newFunction (p := p) name type isDefined
    have hhas : (m.newFunction name type isDefined).1.HasProgram q := hq
    have hqp : p ≠ q := by
      intro heq
      subst heq
      rw [program_attach_self hhas] at hrevision
      simp at hrevision
    have howner : (m.newFunction name type isDefined).1.owner
        (m.newFunction name type isDefined).2 = none := by
      rw [owner, function_newFunction_self]
    have hattached := (hm.newFunction name type isDefined).agree_attach hqp (.inl howner)
    exact ⟨hattached.1, fun g hg => (hattached.2 g hg).trans (hmade.2 g hg)⟩
  | @rework f change hf =>
    refine ⟨?_, fun g hg => function_reworkBody_of_ne ?_⟩
    · rw [program_reworkBody hf]
      split <;> rfl
    · intro heq
      subst heq
      obtain ⟨howner, -, hp⟩ := hm.hasFunction_of_mem_members hg
      rw [program_reworkBody hf, if_pos ⟨howner, hp⟩] at hrevision
      simp at hrevision

end Coherent

section Effect

variable {m edited : Model} {p : ProgramId} {f : FunctionId}

theorem function_newFunction_attach_of_has {name : String} {type : Ty} {isDefined : Bool}
    (hf : m.HasFunction f) :
    ((m.newFunction name type isDefined).1.attach p
      (m.newFunction name type isDefined).2).function f = m.function f := by
  rw [function_attach_of_ne, function_newFunction_of_has hf]
  rintro rfl
  simp [HasFunction, newFunction] at hf

/-- No edit takes a function away, gives it another name, or gives a body to a
declaration. -/
theorem Effect.keeps (h : m.Effect edited) (hf : m.HasFunction f) :
    edited.HasFunction f ∧ edited.name f = m.name f ∧
      edited.isDeclaration f = m.isDeclaration f := by
  cases h with
  | newProgram name => exact ⟨hf, rfl, rfl⟩
  | newFunction name type isDefined =>
    refine ⟨hasFunction_newFunction.2 (.inl hf), ?_, ?_⟩
    · rw [Model.name, function_newFunction_of_has hf, Model.name]
    · rw [isDeclaration, function_newFunction_of_has hf, isDeclaration]
  | @attach q g _ hg _ _ =>
    refine ⟨hasFunction_attach.2 hf, ?_⟩
    by_cases hfg : f = g
    · subst hfg
      simp [Model.name, isDeclaration, function_attach_self hg]
    · simp [Model.name, isDeclaration, function_attach_of_ne hfg]
  | @create q name type isDefined _ _ =>
    refine ⟨hasFunction_attach.2 (hasFunction_newFunction.2 (.inl hf)), ?_, ?_⟩
    · rw [Model.name, function_newFunction_attach_of_has hf, Model.name]
    · rw [isDeclaration, function_newFunction_attach_of_has hf, isDeclaration]
  | @rework g change hg =>
    refine ⟨hasFunction_reworkBody.2 hf, name_reworkBody hg, ?_⟩
    by_cases hfg : f = g
    · subst hfg
      simp [isDeclaration, function_reworkBody_self hg]
    · rw [isDeclaration, function_reworkBody_of_ne hfg, isDeclaration]

/-- No edit takes a program away or gives it another name. -/
theorem Effect.keeps_program (h : m.Effect edited) (hp : m.HasProgram p) :
    edited.HasProgram p ∧ (edited.program p).name = (m.program p).name := by
  have hattach {m : Model} {q : ProgramId} {g : FunctionId} (hp : m.HasProgram p) :
      (m.attach q g).HasProgram p ∧ ((m.attach q g).program p).name = (m.program p).name := by
    refine ⟨hasProgram_attach.2 hp, ?_⟩
    by_cases hpq : p = q
    · subst hpq
      rw [program_attach_self hp]
    · rw [program_attach_of_ne hpq]
  cases h with
  | newProgram name =>
    have hne : p.index ≠ m.programs.size := Nat.ne_of_lt hp
    refine ⟨?_, ?_⟩
    · simp only [HasProgram, Model.newProgram, Array.size_push] at hp ⊢
      omega
    · simp [Model.newProgram, program, Array.getD_eq_getD_getElem?, Array.getElem?_push, hne]
  | newFunction name type isDefined => exact ⟨hp, rfl⟩
  | attach _ _ _ _ => exact hattach hp
  | @create q name type isDefined _ _ =>
    exact hattach (m := (m.newFunction name type isDefined).1) hp
  | rework change hg =>
    refine ⟨hasProgram_reworkBody.2 hp, ?_⟩
    rw [program_reworkBody hg]
    split <;> rfl

/-- A program that keeps its revision is as it was. -/
theorem Coherent.program_of_effect (hm : m.Coherent) (h : m.Effect edited) (hp : m.HasProgram p)
    (hrevision : (edited.program p).revision = (m.program p).revision) :
    edited.program p = m.program p := by
  have hname := (h.keeps_program hp).2
  have htable := (hm.agree_of_effect h hrevision).1
  show Program.mk (edited.program p).name (edited.program p).revision (edited.program p).table = _
  rw [hname, hrevision, htable]

/-- Revisions never go back. -/
theorem Effect.revision_le (h : m.Effect edited) (p : ProgramId) :
    (m.program p).revision ≤ (edited.program p).revision := by
  have hattach {m : Model} {q : ProgramId} {g : FunctionId} (hq : m.HasProgram q) :
      (m.program p).revision ≤ ((m.attach q g).program p).revision := by
    rw [revision_attach hq]
    exact Nat.le_add_right _ _
  cases h with
  | newProgram name => exact Nat.le_of_eq program_newProgram.2.symm
  | newFunction name type isDefined => exact Nat.le_refl _
  | attach hq _ _ _ => exact hattach hq
  | @create q name type isDefined hq _ =>
    exact hattach (m := (m.newFunction name type isDefined).1) hq
  | rework change hg =>
    rw [program_reworkBody hg]
    split
    · exact Nat.le_succ _
    · exact Nat.le_refl _

end Effect

/-! ## A small history -/

namespace Relay

/-- The type of a function that answers an event. -/
def handler : Ty := .signature (.scalar "void") [] false

/-- The type of the other functions. -/
def worker : Ty := .signature (.scalar "i32") [] false

/-- The edits that make a small program.  `main` and `step` call each other,
`main` calls some handler, and `step` passes `onDone` to a declaration.  Nothing
leads to `idle`, which calls `main` and then something without a type. -/
def edits : List Edit :=
  [.newProgram "relay", .create ⟨0⟩ "main" worker true, .create ⟨0⟩ "step" worker true,
   .create ⟨0⟩ "log" worker false, .create ⟨0⟩ "onEvent" handler true,
   .create ⟨0⟩ "onDone" worker true, .create ⟨0⟩ "idle" worker true,
   .newBlock ⟨0⟩ none, .newCall ⟨⟨0⟩, 0⟩ (.function ⟨1⟩) [] none .call,
   .newCall ⟨⟨0⟩, 0⟩ .absent [] (some handler) .call,
   .newBlock ⟨1⟩ none, .newCall ⟨⟨1⟩, 0⟩ (.function ⟨0⟩) [] none .call,
   .newCall ⟨⟨1⟩, 0⟩ (.function ⟨2⟩) [.ref ⟨4⟩] none .invoke,
   .newBlock ⟨5⟩ none, .newCall ⟨⟨5⟩, 0⟩ (.function ⟨0⟩) [] none .call,
   .newCall ⟨⟨5⟩, 0⟩ .absent [] none .call]

/-- The model that these edits make. -/
def model : Model where
  functions := #[
    ⟨"main", worker, some [⟨"bb0", [⟨.function ⟨1⟩, some worker, [], .call⟩,
      ⟨.absent, some handler, [], .call⟩]⟩], some ⟨0⟩⟩,
    ⟨"step", worker, some [⟨"bb0", [⟨.function ⟨0⟩, some worker, [], .call⟩,
      ⟨.function ⟨2⟩, some worker, [.ref ⟨4⟩], .invoke⟩]⟩], some ⟨0⟩⟩,
    ⟨"log", worker, none, some ⟨0⟩⟩,
    ⟨"onEvent", handler, some [], some ⟨0⟩⟩,
    ⟨"onDone", worker, some [], some ⟨0⟩⟩,
    ⟨"idle", worker, some [⟨"bb0", [⟨.function ⟨0⟩, some worker, [], .call⟩,
      ⟨.absent, none, [], .call⟩]⟩], some ⟨0⟩⟩]
  programs := #[⟨"relay", 15, [("main", ⟨0⟩), ("step", ⟨1⟩), ("log", ⟨2⟩), ("onEvent", ⟨3⟩),
    ("onDone", ⟨4⟩), ("idle", ⟨5⟩)]⟩]

theorem made : model.Made :=
  Made.empty.applyAll (show Edit.applyAll .empty edits = some model from rfl)

end Relay

end Model

end CallReach
