import CallReach.Proofs.Model.Members

/-!
# References between functions

A call site refers to functions by their ids.  `Mentions` gathers the functions
that a program is about, its own and those that its call sites call, and
`Grounded` says that no call site refers to something that is not there.  Edits
that refer to functions that are there keep it so: `mem_blocks_of_apply` finds
out where the call sites of an edited model come from.
-/

namespace CallReach

/-- The functions that an edit refers to as callees and arguments. -/
def Edit.refs : Edit → List FunctionId
  | newCall _ callee arguments calledType kind => Model.refs ⟨callee, calledType, arguments, kind⟩
  | _ => []

namespace Model

variable {m edited : Model} {p : ProgramId} {f : FunctionId}

/-! ## What a program mentions -/

/-- The functions of a program and those that its call sites call. -/
def Mentions (m : Model) (p : ProgramId) (f : FunctionId) : Prop :=
  f ∈ m.members p ∨
    ∃ caller ∈ m.members p, ∃ entry ∈ m.sites caller, entry.2.callee = .function f

/-- A consistent program mentions its own functions only. -/
theorem Coherent.mem_members_of_mentions (hm : m.Coherent) (hrefs : m.checkRefs p = .ok ())
    (h : m.Mentions p f) : f ∈ m.members p := by
  rcases h with hmember | ⟨caller, hcaller, entry, hentry, hcallee⟩
  · exact hmember
  · exact hm.mem_members_of_callee hrefs hcaller hentry hcallee

/-! ## What is referred to is there -/

/-- Every function that a call site refers to is there. -/
def Grounded (m : Model) : Prop :=
  ∀ f, ∀ block ∈ m.blocks f, ∀ site ∈ block.sites, ∀ g ∈ refs site, m.HasFunction g

theorem exists_block_of_mem_sites {entry : SiteId × CallSite} (h : entry ∈ m.sites f) :
    ∃ block ∈ m.blocks f, entry.2 ∈ block.sites := by
  obtain ⟨-, block, hblock, hsite⟩ := mem_sites_iff.1 h
  exact ⟨block, List.mem_of_getElem? hblock, List.mem_of_getElem? hsite⟩

/-- The functions that a program mentions are there. -/
theorem Grounded.hasFunction_of_mentions (hground : m.Grounded) (hm : m.Coherent)
    (h : m.Mentions p f) : m.HasFunction f := by
  rcases h with hmember | ⟨caller, -, entry, hentry, hcallee⟩
  · exact (hm.hasFunction_of_mem_members hmember).2.1
  · obtain ⟨block, hblock, hsite⟩ := exists_block_of_mem_sites hentry
    exact hground caller block hblock entry.2 hsite f (mem_refs_iff.2 (.inl hcallee))

/-- A new function has no blocks, like the id of none. -/
theorem blocks_newFunction {name : String} {type : Ty} {isDefined : Bool} :
    (m.newFunction name type isDefined).1.blocks f = m.blocks f := by
  by_cases hf : m.HasFunction f
  · rw [blocks, function_newFunction_of_has hf, blocks]
  · rw [blocks, blocks, function_of_not_hasFunction hf]
    by_cases hnew : f = (m.newFunction name type isDefined).2
    · rw [hnew, function_newFunction_self]
      cases isDefined <;> rfl
    · have hnot : ¬(m.newFunction name type isDefined).1.HasFunction f := by
        have hne : f.index ≠ m.functions.size := fun heq => hnew (FunctionId.ext heq)
        simp only [HasFunction, newFunction, Array.size_push] at hf ⊢
        omega
      rw [function_of_not_hasFunction hnot]

theorem blocks_attach {g : FunctionId} (hg : m.HasFunction g) :
    (m.attach p g).blocks f = m.blocks f := by
  by_cases hfg : f = g
  · subst hfg
    rw [blocks, function_attach_self hg, blocks]
  · rw [blocks, function_attach_of_ne hfg, blocks]

/-- A block of a reworked body is an old one, or comes out of the change. -/
theorem mem_blocks_reworkBody {g : FunctionId} {change : List Block → List Block}
    (hg : m.HasFunction g) {block : Block} (h : block ∈ (m.reworkBody g change).blocks f) :
    block ∈ m.blocks f ∨ f = g ∧ block ∈ change (m.blocks g) := by
  by_cases hfg : f = g
  · subst hfg
    rw [blocks, function_reworkBody_self hg] at h
    rw [blocks]
    cases hbody : (m.function f).body with
    | none => simp [hbody] at h
    | some body =>
      rw [hbody] at h
      exact .inr ⟨rfl, h⟩
  · rw [blocks, function_reworkBody_of_ne hfg] at h
    exact .inl h

/-- After an edit a call site is an old one, or refers to what the edit refers
to. -/
theorem mem_blocks_of_apply {e : Edit} (hscope : e.InScope m) (happly : e.apply m = .ok edited)
    {block : Block} (hblock : block ∈ edited.blocks f) {site : CallSite}
    (hsite : site ∈ block.sites) :
    (∃ old ∈ m.blocks f, site ∈ old.sites) ∨ refs site = e.refs := by
  cases e with
  | newProgram name =>
    cases happly
    exact .inl ⟨block, hblock, hsite⟩
  | newFunction name type isDefined =>
    obtain rfl : (m.newFunction name type isDefined).1 = edited := Except.ok.inj happly
    rw [blocks_newFunction] at hblock
    exact .inl ⟨block, hblock, hsite⟩
  | adopt p g =>
    obtain ⟨-, -, rfl⟩ := adopt_eq_ok happly
    rw [blocks_attach hscope.2] at hblock
    exact .inl ⟨block, hblock, hsite⟩
  | create p name type isDefined =>
    obtain ⟨-, rfl⟩ := create_eq_ok happly
    rw [blocks_attach (hasFunction_newFunction.2 (.inr rfl)), blocks_newFunction] at hblock
    exact .inl ⟨block, hblock, hsite⟩
  | newBlock g name =>
    obtain ⟨-, rfl⟩ := newBlock_eq_ok happly
    rcases mem_blocks_reworkBody hscope hblock with hold | ⟨rfl, hnew⟩
    · exact .inl ⟨block, hold, hsite⟩
    · rcases List.mem_append.1 hnew with hold | hlast
      · exact .inl ⟨block, hold, hsite⟩
      · rw [List.mem_singleton.1 hlast] at hsite
        simp at hsite
  | newCall b callee arguments calledType kind =>
    cases happly
    rcases mem_blocks_reworkBody hscope.1 hblock with hold | ⟨rfl, hnew⟩
    · exact .inl ⟨block, hold, hsite⟩
    · obtain ⟨i, hi⟩ := List.mem_iff_getElem?.1 hnew
      rw [List.getElem?_modify] at hi
      obtain ⟨old, hold, rfl⟩ := Option.map_eq_some_iff.1 hi
      have hmem := List.mem_iff_getElem?.2 ⟨i, hold⟩
      split at hsite
      · rcases List.mem_append.1 hsite with hearlier | hlast
        · exact .inl ⟨old, hmem, hearlier⟩
        · rw [List.mem_singleton.1 hlast]
          exact .inr rfl
      · exact .inl ⟨old, hmem, hsite⟩

/-- An edit that refers to functions that are there keeps every reference
good. -/
theorem Grounded.edit (hground : m.Grounded) {e : Edit} (hscope : e.InScope m)
    (hrefs : ∀ f ∈ e.refs, m.HasFunction f) (happly : e.apply m = .ok edited) :
    edited.Grounded := by
  intro f block hblock site hsite g hg
  refine ((effect_of_apply hscope happly).keeps ?_).1
  rcases mem_blocks_of_apply hscope happly hblock hsite with ⟨old, hold, hmem⟩ | hnew
  · exact hground f old hold site hmem g hg
  · exact hrefs g (hnew ▸ hg)

end Model

end CallReach
