import Mathlib.Data.List.Nodup
import CallReach.Model.FunctionSet
import CallReach.Proofs.Model.History

/-!
# The functions of one program

Two ids may stand for the same function of a model, but never two ids of one
coherent program: its functions have distinct names.  Inside a program a set of
functions is therefore a set of ids, and `contains`, `insert`, `union` and
`sorted` are what they are for ids.

`mem_sites_iff` says that the call sites of a function are those of its body,
each at its position.  `checkRefs_eq_ok_iff` reads the consistency check: it
passes exactly when the call sites of a program refer to functions of that
program alone.
-/

namespace CallReach.Model

variable {m : Model} {p : ProgramId} {f g : FunctionId}

/-! ## Functions and their names -/

/-- A function of a program is found under its name. -/
theorem Coherent.find?_name (hm : m.Coherent) (h : f ∈ m.members p) :
    m.find? p (m.name f) = some f := by
  obtain ⟨⟨name, g⟩, hentry, rfl⟩ := List.mem_map.1 h
  rw [hm.name_of_mem hentry]
  exact Table.lookup_of_mem (hm.nodup_names p) hentry

/-- What is found in a program is one of its functions. -/
theorem mem_members_of_find? {name : String} (h : m.find? p name = some f) :
    f ∈ m.members p :=
  List.mem_map.2 ⟨_, Table.mem_of_lookup h, rfl⟩

theorem Coherent.name_of_find? (hm : m.Coherent) {name : String}
    (h : m.find? p name = some f) : m.name f = name :=
  hm.name_of_mem (Table.mem_of_lookup h)

/-- Nothing is found under a name that no function of the program has. -/
theorem Coherent.find?_eq_none_iff (hm : m.Coherent) {name : String} :
    m.find? p name = none ↔ ∀ f ∈ m.members p, m.name f ≠ name := by
  constructor
  · intro hnone f hf heq
    rw [← heq, hm.find?_name hf] at hnone
    cases hnone
  · intro hnames
    cases hfind : m.find? p name with
    | none => rfl
    | some f => exact absurd (hm.name_of_find? hfind) (hnames f (mem_members_of_find? hfind))

/-- A function belongs to a program exactly when it is one of its functions. -/
theorem Coherent.owns_iff (hm : m.Coherent) : m.owns p f = true ↔ f ∈ m.members p := by
  rw [owns, decide_eq_true_iff]
  exact ⟨mem_members_of_find?, hm.find?_name⟩

/-- Functions of one program have distinct names. -/
theorem Coherent.eq_of_name_eq (hm : m.Coherent) (hf : f ∈ m.members p)
    (hg : g ∈ m.members p) (h : m.name f = m.name g) : f = g := by
  have hfind := hm.find?_name hf
  rw [h, hm.find?_name hg] at hfind
  exact (Option.some.inj hfind).symm

/-- The names of the functions of a program are the keys of its table. -/
theorem Coherent.map_name_members (hm : m.Coherent) :
    (m.members p).map m.name = (m.program p).table.map (·.1) := by
  rw [members, List.map_map]
  exact List.map_congr_left fun entry hentry => hm.name_of_mem hentry

theorem Coherent.nodup_members (hm : m.Coherent) : (m.members p).Nodup := by
  refine List.Nodup.of_map m.name ?_
  rw [hm.map_name_members]
  exact hm.nodup_names p

/-- A declaration has no blocks. -/
theorem blocks_of_isDeclaration (h : m.isDeclaration f = true) : m.blocks f = [] := by
  rw [isDeclaration, Option.isNone_iff_eq_none] at h
  rw [blocks, h, Option.getD_none]

theorem sites_of_isDeclaration (h : m.isDeclaration f = true) : m.sites f = [] := by
  rw [sites, blocks_of_isDeclaration h]
  rfl

theorem mem_defined_iff :
    f ∈ m.defined p ↔ f ∈ m.members p ∧ m.isDeclaration f = false := by
  simp [defined]

/-- What declarations have no part in can be gathered from all functions. -/
theorem flatMap_defined {α : Type} {out : FunctionId → List α}
    (hout : ∀ f, m.isDeclaration f = true → out f = []) :
    (m.defined p).flatMap out = (m.members p).flatMap out := by
  rw [defined]
  induction m.members p with
  | nil => rfl
  | cons f rest ih => cases hf : m.isDeclaration f <;> simp [hf, hout, ih]

/-! ## Sets of functions of a program -/

/-- Two ids of one program stand for the same function only when they are
equal. -/
theorem Coherent.same_iff (hm : m.Coherent) (hf : f ∈ m.members p) (hg : g ∈ m.members p) :
    m.same f g = true ↔ f = g := by
  constructor
  · intro h
    simp only [same, Bool.or_eq_true, decide_eq_true_eq, Bool.and_eq_true] at h
    rcases h with heq | ⟨hname, -⟩
    · exact heq
    · exact hm.eq_of_name_eq hf hg hname
  · rintro rfl
    simp [same]

theorem Coherent.contains_iff (hm : m.Coherent) {set : FunctionSet}
    (hset : set ⊆ m.members p) (hf : f ∈ m.members p) :
    m.contains set f = true ↔ f ∈ set := by
  rw [contains, List.any_eq_true]
  constructor
  · rintro ⟨g, hg, hsame⟩
    rwa [(hm.same_iff hf (hset hg)).1 hsame]
  · intro h
    exact ⟨f, h, (hm.same_iff hf hf).2 rfl⟩

theorem Coherent.mem_insert_iff (hm : m.Coherent) {set : FunctionSet}
    (hset : set ⊆ m.members p) (hf : f ∈ m.members p) :
    g ∈ m.insert set f ↔ g ∈ set ∨ g = f := by
  rw [insert]
  split
  · rename_i hcontains
    have hmem := (hm.contains_iff hset hf).1 hcontains
    constructor
    · exact .inl
    · rintro (hg | rfl)
      · exact hg
      · exact hmem
  · simp

/-- What is in a union comes from one of its parts. -/
theorem mem_or_mem_of_mem_union {set more : FunctionSet} (h : g ∈ m.union set more) :
    g ∈ set ∨ g ∈ more := by
  rw [union] at h
  induction more generalizing set with
  | nil => exact .inl h
  | cons f rest ih =>
    rcases ih h with hset | hrest
    · rw [insert] at hset
      split at hset
      · exact .inl hset
      · rcases List.mem_append.1 hset with hold | hnew
        · exact .inl hold
        · exact .inr (List.mem_cons.2 (.inl (List.mem_singleton.1 hnew)))
    · exact .inr (List.mem_cons_of_mem _ hrest)

theorem Coherent.mem_union_iff (hm : m.Coherent) {set more : FunctionSet}
    (hset : set ⊆ m.members p) (hmore : more ⊆ m.members p) :
    g ∈ m.union set more ↔ g ∈ set ∨ g ∈ more := by
  induction more generalizing set with
  | nil => simp [union]
  | cons f rest ih =>
    obtain ⟨hf, hrest⟩ := List.cons_subset.1 hmore
    have hinsert : m.insert set f ⊆ m.members p := by
      intro h hmem
      rcases (hm.mem_insert_iff hset hf).1 hmem with hold | rfl
      · exact hset hold
      · exact hf
    have hstep : m.union set (f :: rest) = m.union (m.insert set f) rest := rfl
    rw [hstep, ih hinsert hrest, hm.mem_insert_iff hset hf, List.mem_cons, or_assoc]

theorem nodup_insert {set : FunctionSet} (hset : set.Nodup) (f : FunctionId) :
    (m.insert set f).Nodup := by
  rw [insert]
  split
  · exact hset
  · rename_i hnew
    rw [List.nodup_append]
    refine ⟨hset, by simp, fun g hg h hh heq => hnew ?_⟩
    rw [← List.mem_singleton.1 hh, ← heq]
    exact contains_of_mem hg

theorem nodup_union {set : FunctionSet} (hset : set.Nodup) (more : FunctionSet) :
    (m.union set more).Nodup := by
  rw [union]
  induction more generalizing set with
  | nil => exact hset
  | cons f rest ih => exact ih (nodup_insert hset f)

@[simp]
theorem mem_sorted {set : FunctionSet} : f ∈ m.sorted set ↔ f ∈ set :=
  List.mem_mergeSort

theorem sorted_perm (set : FunctionSet) : (m.sorted set).Perm set :=
  List.mergeSort_perm _ _

theorem mem_names_iff {set : FunctionSet} {name : String} :
    name ∈ m.names set ↔ ∃ f ∈ set, m.name f = name := by
  simp [names, mem_sorted]

/-! ## Call sites and their positions -/

/-- A call site stands in the body of a function, in the block and at the place
that its id names. -/
def HasSite (m : Model) (f : FunctionId) (id : SiteId) (site : CallSite) : Prop :=
  id.block.function = f ∧ ∃ block, (m.blocks f)[id.block.index]? = some block ∧
    block.sites[id.index]? = some site

theorem mem_sites_iff {id : SiteId} {site : CallSite} :
    (id, site) ∈ m.sites f ↔ m.HasSite f id site := by
  simp only [sites, List.mem_flatMap, List.mem_map, Prod.exists, List.mem_zipIdx_iff_getElem?]
  constructor
  · rintro ⟨block, i, hblock, site, j, hsite, heq⟩
    cases heq
    exact ⟨rfl, block, hblock, hsite⟩
  · rintro ⟨rfl, block, hblock, hsite⟩
    exact ⟨block, id.block.index, hblock, site, id.index, hsite, rfl⟩

/-! ## References -/

/-- A function that a call site refers to is its callee or one of its
arguments. -/
theorem mem_refs_iff {site : CallSite} :
    f ∈ refs site ↔ site.callee = .function f ∨ .ref f ∈ site.arguments := by
  rw [refs, List.mem_append]
  refine or_congr ?_ ?_
  · cases site.callee <;> simp [eq_comm]
  · rw [List.mem_filterMap]
    constructor
    · rintro ⟨argument, hmem, hsome⟩
      cases argument with
      | ref g =>
        cases hsome
        exact hmem
      | operand | other => simp at hsome
    · intro h
      exact ⟨_, h, rfl⟩

/-- The consistency check passes exactly when every reference of the program's
call sites stays inside the program. -/
theorem checkRefs_eq_ok_iff :
    m.checkRefs p = .ok () ↔
      ∀ f ∈ m.members p, ∀ entry ∈ m.sites f, ∀ g ∈ refs entry.2, m.owns p g = true := by
  have hdangling : m.checkRefs p = .ok () ↔ m.dangling? p = none := by
    unfold checkRefs
    split <;> simp_all
  rw [hdangling, dangling?, List.findSome?_eq_none_iff, programSites]
  constructor
  · intro h f hf entry hentry g hg
    have hnone := h entry (List.mem_flatMap.2 ⟨f, hf, hentry⟩)
    simp only [Option.map_eq_none_iff, List.find?_eq_none] at hnone
    simpa using hnone g hg
  · intro h entry hentry
    obtain ⟨f, hf, hmem⟩ := List.mem_flatMap.1 hentry
    simp only [Option.map_eq_none_iff, List.find?_eq_none]
    intro g hg
    simp [h f hf entry hmem g hg]

/-- The callees of a consistent program are functions of the program. -/
theorem Coherent.mem_members_of_callee (hm : m.Coherent) (hrefs : m.checkRefs p = .ok ())
    (hf : f ∈ m.members p) {entry : SiteId × CallSite} (hentry : entry ∈ m.sites f)
    (hg : entry.2.callee = .function g) : g ∈ m.members p :=
  hm.owns_iff.1 (checkRefs_eq_ok_iff.1 hrefs f hf entry hentry g (mem_refs_iff.2 (.inl hg)))

/-- The functions that a consistent program passes are functions of the
program. -/
theorem Coherent.mem_members_of_argument (hm : m.Coherent) (hrefs : m.checkRefs p = .ok ())
    (hf : f ∈ m.members p) {entry : SiteId × CallSite} (hentry : entry ∈ m.sites f)
    (hg : .ref g ∈ entry.2.arguments) : g ∈ m.members p :=
  hm.owns_iff.1 (checkRefs_eq_ok_iff.1 hrefs f hf entry hentry g (mem_refs_iff.2 (.inr hg)))

/-! ## Models that agree on a program -/

namespace Agree

variable {other : Model}

theorem members_eq (h : Agree p m other) : other.members p = m.members p := by
  rw [members, h.1, members]

theorem find?_eq (h : Agree p m other) (name : String) :
    other.find? p name = m.find? p name := by
  rw [find?, h.1, find?]

theorem symm (h : Agree p m other) : Agree p other m :=
  ⟨h.1.symm, fun f hf => (h.2 f (h.members_eq ▸ hf)).symm⟩

theorem name_eq (h : Agree p m other) (hf : f ∈ m.members p) : other.name f = m.name f := by
  rw [name, h.2 f hf, name]

theorem isDeclaration_eq (h : Agree p m other) (hf : f ∈ m.members p) :
    other.isDeclaration f = m.isDeclaration f := by
  rw [isDeclaration, h.2 f hf, isDeclaration]

theorem defined_eq (h : Agree p m other) : other.defined p = m.defined p := by
  rw [defined, h.members_eq, defined]
  exact List.filter_congr fun f hf => by rw [h.isDeclaration_eq hf]

theorem sites_eq (h : Agree p m other) (hf : f ∈ m.members p) : other.sites f = m.sites f := by
  rw [sites, blocks, h.2 f hf, sites, blocks]

/-- A program is consistent in both models or in none. -/
theorem checkRefs_eq_ok (hm : m.Coherent) (hother : other.Coherent) (h : Agree p m other)
    (hrefs : m.checkRefs p = .ok ()) : other.checkRefs p = .ok () := by
  rw [checkRefs_eq_ok_iff] at hrefs ⊢
  intro f hf entry hentry g hg
  rw [h.members_eq] at hf
  rw [h.sites_eq hf] at hentry
  rw [hother.owns_iff, h.members_eq]
  exact hm.owns_iff.1 (hrefs f hf entry hentry g hg)

end Agree

end CallReach.Model
