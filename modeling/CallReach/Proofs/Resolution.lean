import CallReach.Resolution
import CallReach.Proofs.Model.Members

/-!
# What resolution finds

Resolution is described without the index.  An indirect call may reach the
defined functions of its called type, and an argument may stand for the defined
function that it refers to, or for those of the signature that its type
carries.

* `TypeIndex.Exact` says that an index has the defined functions of a program
  by type, and `exact_ofProgram` says that the index of the program does.
* `mem_pointerTargets_iff` and `mem_passedTargets_iff` describe the candidates
  of one call site.
* `candidates_eq_ok` and `candidatesFrom_eq_error_iff` describe those of a
  function: all its sites are well-formed and the candidates are theirs, or the
  first malformed site is reported.
-/

namespace CallReach

/-! ## Candidates without an index -/

/-- A type that is a signature or a pointer to it. -/
def Ty.Carries (type signature : Ty) : Prop :=
  signature.isSignature = true ∧ (type = signature ∨ type = .pointer signature)

theorem Ty.functionType?_eq_some_iff {type signature : Ty} :
    type.functionType? = some signature ↔ type.Carries signature := by
  constructor
  · intro h
    cases type with
    | scalar name => simp [functionType?] at h
    | signature result params variadic =>
      obtain rfl := Option.some.inj h
      exact ⟨rfl, .inl rfl⟩
    | pointer pointee =>
      cases pointee with
      | scalar name => simp [functionType?] at h
      | pointer inner => simp [functionType?] at h
      | signature result params variadic =>
        obtain rfl := Option.some.inj h
        exact ⟨rfl, .inr rfl⟩
  · rintro ⟨hsignature, h⟩
    cases signature with
    | scalar name => simp [isSignature] at hsignature
    | pointer pointee => simp [isSignature] at hsignature
    | signature result params variadic =>
      rcases h with rfl | rfl <;> rfl

/-- The functions that an indirect call may reach: the defined functions of the
program that have its called type. -/
def CallSite.MayCall (m : Model) (p : ProgramId) (site : CallSite) (g : FunctionId) : Prop :=
  site.callee = .absent ∧ site.calledType = some (m.type g) ∧ g ∈ m.defined p

/-- The functions that an argument may stand for: the defined function that it
refers to, or the defined functions of the program with the signature that its
type carries. -/
def Argument.MayBe (m : Model) (p : ProgramId) (argument : Argument) (g : FunctionId) : Prop :=
  (argument = .ref g ∧ m.isDeclaration g = false) ∨
    ∃ type name, argument = .operand type name ∧ type.Carries (m.type g) ∧ g ∈ m.defined p

/-- The functions that a call may pass. -/
def CallSite.MayPass (m : Model) (p : ProgramId) (site : CallSite) (g : FunctionId) : Prop :=
  ∃ argument ∈ site.arguments, argument.MayBe m p g

/-- The first malformed site of a list of call sites. -/
def FirstFault (sites : List (SiteId × CallSite)) (bad : MalformedSite) : Prop :=
  ∃ before site after, sites = before ++ (bad.site, site) :: after ∧
    (∀ entry ∈ before, entry.2.fault? = none) ∧ site.fault? = some bad.fault

/-! ## The index -/

namespace TypeIndex

variable {m : Model} {p : ProgramId} {f g : FunctionId} {type : Ty}

/-- An index that has the defined functions of a program by type, and no
others. -/
def Exact (m : Model) (p : ProgramId) (index : TypeIndex) : Prop :=
  ∀ type g, g ∈ index.lookup type ↔ g ∈ m.defined p ∧ m.type g = type

/-- One more function changes the group of its type only. -/
theorem lookup_addToGroup (m : Model) (f : FunctionId) (groups : List (Ty × FunctionSet))
    (type : Ty) :
    (TypeIndex.mk (addToGroup m f groups)).lookup type =
      if type = m.type f then m.insert ((TypeIndex.mk groups).lookup type) f
      else (TypeIndex.mk groups).lookup type := by
  induction groups with
  | nil =>
    by_cases h : type = m.type f
    · simp [lookup, addToGroup, h, Model.insert, Model.contains]
    · have hne : (type == m.type f) = false := by simpa using h
      simp [lookup, addToGroup, h, List.lookup_cons, hne]
  | cons group rest ih =>
    obtain ⟨key, set⟩ := group
    by_cases hkey : key = m.type f
    · by_cases h : type = m.type f
      · simp [lookup, addToGroup, h, hkey]
      · have hne : (type == m.type f) = false := by simpa using h
        simp [lookup, addToGroup, h, hkey, List.lookup_cons, hne]
    · by_cases h : type = key
      · have hne : ¬type = m.type f := fun heq => hkey (h ▸ heq)
        simp [lookup, addToGroup, h, hkey]
      · have hne : (type == key) = false := by simpa using h
        simpa [lookup, addToGroup, hkey, List.lookup_cons, hne] using ih

/-- The groups that a list of functions makes out of some groups. -/
theorem mem_lookup_foldl (hm : m.Coherent) {functions : List FunctionId}
    (hfunctions : functions ⊆ m.members p) {groups : List (Ty × FunctionSet)}
    (hgroups : ∀ type, (TypeIndex.mk groups).lookup type ⊆ m.members p) :
    g ∈ (TypeIndex.mk (functions.foldl (fun groups f => addToGroup m f groups) groups)).lookup
        type ↔
      g ∈ (TypeIndex.mk groups).lookup type ∨ g ∈ functions ∧ m.type g = type := by
  induction functions generalizing groups with
  | nil => simp
  | cons f rest ih =>
    obtain ⟨hf, hrest⟩ := List.cons_subset.1 hfunctions
    have hmem (type : Ty) (g : FunctionId) :
        g ∈ (TypeIndex.mk (addToGroup m f groups)).lookup type ↔
          g ∈ (TypeIndex.mk groups).lookup type ∨ g = f ∧ m.type f = type := by
      rw [lookup_addToGroup]
      split
      · rename_i htype
        rw [hm.mem_insert_iff (hgroups type) hf]
        simp [htype]
      · rename_i htype
        simp [Ne.symm htype]
    rw [List.foldl_cons, ih hrest, hmem, List.mem_cons]
    · constructor
      · rintro ((hold | ⟨rfl, htype⟩) | ⟨hmore, htype⟩)
        · exact .inl hold
        · exact .inr ⟨.inl rfl, htype⟩
        · exact .inr ⟨.inr hmore, htype⟩
      · rintro (hold | ⟨rfl | hmore, htype⟩)
        · exact .inl (.inl hold)
        · exact .inl (.inr ⟨rfl, htype⟩)
        · exact .inr ⟨hmore, htype⟩
    · intro type g hg
      rcases (hmem type g).1 hg with hold | ⟨rfl, -⟩
      · exact hgroups type hold
      · exact hf

/-- The index of a list of functions of a program. -/
theorem mem_lookup_build (hm : m.Coherent) {functions : List FunctionId}
    (hfunctions : functions ⊆ m.members p) :
    g ∈ (build m functions).lookup type ↔
      g ∈ functions ∧ m.isDeclaration g = false ∧ m.type g = type := by
  have hdefined : functions.filter (!m.isDeclaration ·) ⊆ m.members p :=
    fun f hf => hfunctions (List.mem_of_mem_filter hf)
  rw [build, mem_lookup_foldl hm hdefined (by simp [lookup])]
  simp [lookup, and_assoc]

/-- An index of the functions of a program is exact, however they are listed. -/
theorem exact_build (hm : m.Coherent) {functions : List FunctionId}
    (hfunctions : ∀ g, g ∈ functions ↔ g ∈ m.members p) : (build m functions).Exact m p := by
  intro type g
  rw [mem_lookup_build hm fun f hf => (hfunctions f).1 hf, hfunctions, Model.mem_defined_iff,
    and_assoc]

/-- The index of a program has the defined functions of the program. -/
theorem exact_ofProgram (hm : m.Coherent) : (ofProgram m p).Exact m p :=
  exact_build hm fun _ => Iff.rfl

end TypeIndex

/-! ## One call site -/

section Site

variable {m : Model} {p : ProgramId} {index : TypeIndex} {g : FunctionId}

theorem CallSite.mem_pointerTargets_iff (hindex : index.Exact m p) {site : CallSite} :
    g ∈ site.pointerTargets index ↔ site.MayCall m p g := by
  unfold pointerTargets MayCall
  split
  · rename_i type hcallee htype
    rw [hindex, hcallee, htype]
    simp [eq_comm, and_comm]
  · rename_i hnot
    simp only [List.not_mem_nil, false_iff]
    rintro ⟨hcallee, htype, -⟩
    exact hnot _ hcallee htype

theorem Argument.mem_candidates_iff (hindex : index.Exact m p) {argument : Argument} :
    g ∈ argument.candidates m index ↔ argument.MayBe m p g := by
  cases argument with
  | ref f =>
    cases hdeclared : m.isDeclaration f with
    | true =>
      simp only [candidates, hdeclared, if_true, List.not_mem_nil, MayBe, false_iff]
      rintro (⟨heq, hdefined⟩ | ⟨type, name, heq, -⟩)
      · cases heq
        simp [hdeclared] at hdefined
      · cases heq
    | false =>
      simp only [candidates, hdeclared, Bool.false_eq_true, if_false, List.mem_singleton, MayBe]
      constructor
      · rintro rfl
        exact .inl ⟨rfl, hdeclared⟩
      · rintro (⟨heq, -⟩ | ⟨type, name, heq, -⟩)
        · cases heq
          rfl
        · cases heq
  | operand type name =>
    have hlookup : g ∈ (type.functionType?.map index.lookup).getD [] ↔
        type.Carries (m.type g) ∧ g ∈ m.defined p := by
      rw [← Ty.functionType?_eq_some_iff]
      cases hsignature : type.functionType? with
      | none => simp
      | some signature =>
        simp only [Option.map_some, Option.getD_some, hindex signature g, Option.some.injEq]
        rw [and_comm, eq_comm]
    rw [candidates, hlookup, MayBe]
    constructor
    · intro h
      exact .inr ⟨type, name, rfl, h⟩
    · rintro (⟨heq, -⟩ | ⟨_, _, heq, h⟩)
      · cases heq
      · cases heq
        exact h
  | other value => simp [candidates, MayBe]

/-- A function that an argument may stand for is one of the program, as soon as
what the argument refers to is. -/
theorem Argument.MayBe.mem_members {argument : Argument} (h : argument.MayBe m p g)
    (hrefs : ∀ f, argument = .ref f → f ∈ m.members p) : g ∈ m.members p := by
  rcases h with ⟨href, -⟩ | ⟨-, -, -, -, hdefined⟩
  · exact hrefs g href
  · exact (Model.mem_defined_iff.1 hdefined).1

theorem Argument.MayBe.not_isDeclaration {argument : Argument} (h : argument.MayBe m p g) :
    m.isDeclaration g = false := by
  rcases h with ⟨-, hdefined⟩ | ⟨-, -, -, -, hdefined⟩
  · exact hdefined
  · exact (Model.mem_defined_iff.1 hdefined).2

theorem CallSite.mem_passedTargets_iff (hm : m.Coherent) (hindex : index.Exact m p)
    {site : CallSite} (hrefs : ∀ f, .ref f ∈ site.arguments → f ∈ m.members p) :
    g ∈ site.passedTargets m index ↔ site.MayPass m p g := by
  -- The union grows along the arguments and stays inside the program.
  have hfold : ∀ (arguments : List Argument) (found : FunctionSet),
      found ⊆ m.members p → (∀ f, .ref f ∈ arguments → f ∈ m.members p) →
      (g ∈ arguments.foldl (fun found a => m.union found (a.candidates m index)) found ↔
        g ∈ found ∨ ∃ a ∈ arguments, a.MayBe m p g) := by
    intro arguments
    induction arguments with
    | nil => simp
    | cons a rest ih =>
      intro found hfound hmembers
      have ha : a.candidates m index ⊆ m.members p := by
        intro f hf
        refine ((Argument.mem_candidates_iff hindex).1 hf).mem_members fun h href => ?_
        exact hmembers h (href ▸ List.mem_cons_self)
      have hunion : m.union found (a.candidates m index) ⊆ m.members p := by
        intro f hf
        rcases Model.mem_or_mem_of_mem_union hf with hold | hnew
        · exact hfound hold
        · exact ha hnew
      rw [List.foldl_cons, ih _ hunion fun f hf => hmembers f (List.mem_cons_of_mem _ hf),
        hm.mem_union_iff hfound ha, Argument.mem_candidates_iff hindex, or_assoc]
      simp
  rw [passedTargets, hfold site.arguments [] (List.nil_subset _) hrefs]
  simp [MayPass]

end Site

/-! ## One function -/

section Function

variable {m : Model} {p : ProgramId} {index : TypeIndex} {callbacks : Bool}

/-- A set with the candidates of one more site. -/
def addTargets (m : Model) (index : TypeIndex) (callbacks : Bool) (found : FunctionSet)
    (site : CallSite) : FunctionSet :=
  let found := m.union found (site.pointerTargets index)
  if callbacks then m.union found (site.passedTargets m index) else found

theorem candidatesFrom_cons {found : FunctionSet} {id : SiteId} {site : CallSite}
    {rest : List (SiteId × CallSite)} :
    candidatesFrom m index callbacks found ((id, site) :: rest) =
      match site.fault? with
      | some fault => .error ⟨id, fault⟩
      | none => candidatesFrom m index callbacks (addTargets m index callbacks found site) rest :=
  rfl

theorem mem_addTargets_iff (hm : m.Coherent) (hindex : index.Exact m p) {found : FunctionSet}
    (hfound : found ⊆ m.members p) {site : CallSite}
    (hrefs : ∀ f, .ref f ∈ site.arguments → f ∈ m.members p) {g : FunctionId} :
    g ∈ addTargets m index callbacks found site ↔
      g ∈ found ∨ site.MayCall m p g ∨ callbacks = true ∧ site.MayPass m p g := by
  have hcalls : site.pointerTargets index ⊆ m.members p := fun g hg =>
    (Model.mem_defined_iff.1 ((CallSite.mem_pointerTargets_iff hindex).1 hg).2.2).1
  have hpasses : site.passedTargets m index ⊆ m.members p := by
    intro g hg
    obtain ⟨a, ha, hmay⟩ := (CallSite.mem_passedTargets_iff hm hindex hrefs).1 hg
    exact hmay.mem_members fun f href => hrefs f (href ▸ ha)
  have hunion : m.union found (site.pointerTargets index) ⊆ m.members p := fun g hg =>
    (Model.mem_or_mem_of_mem_union hg).elim (hfound ·) (hcalls ·)
  rw [← CallSite.mem_pointerTargets_iff hindex,
    ← CallSite.mem_passedTargets_iff hm hindex hrefs]
  unfold addTargets
  cases callbacks with
  | true =>
    rw [if_pos rfl, hm.mem_union_iff hunion hpasses, hm.mem_union_iff hfound hcalls]
    simp [or_assoc]
  | false =>
    rw [if_neg (by simp), hm.mem_union_iff hfound hcalls]
    simp

theorem addTargets_subset_members (hm : m.Coherent) (hindex : index.Exact m p)
    {found : FunctionSet} (hfound : found ⊆ m.members p) {site : CallSite}
    (hrefs : ∀ f, .ref f ∈ site.arguments → f ∈ m.members p) :
    addTargets m index callbacks found site ⊆ m.members p := by
  intro g hg
  rcases (mem_addTargets_iff hm hindex hfound hrefs).1 hg with hold | hcall | ⟨-, a, ha, hmay⟩
  · exact hfound hold
  · exact (Model.mem_defined_iff.1 hcall.2.2).1
  · exact hmay.mem_members fun f href => hrefs f (href ▸ ha)

theorem firstFault_cons_iff {id : SiteId} {site : CallSite} {rest : List (SiteId × CallSite)}
    {bad : MalformedSite} :
    FirstFault ((id, site) :: rest) bad ↔
      id = bad.site ∧ site.fault? = some bad.fault ∨ site.fault? = none ∧ FirstFault rest bad := by
  constructor
  · rintro ⟨before, other, after, heq, hbefore, hother⟩
    cases before with
    | nil =>
      cases heq
      exact .inl ⟨rfl, hother⟩
    | cons entry before =>
      cases heq
      obtain ⟨hsite, hrest⟩ := List.forall_mem_cons.1 hbefore
      exact .inr ⟨hsite, before, other, after, rfl, hrest, hother⟩
  · rintro (⟨rfl, hfault⟩ | ⟨hsite, before, other, after, rfl, hrest, hother⟩)
    · exact ⟨[], site, rest, rfl, by simp, hfault⟩
    · exact ⟨(id, site) :: before, other, after, rfl, List.forall_mem_cons.2 ⟨hsite, hrest⟩, hother⟩

/-- A scan fails exactly at the first malformed site. -/
theorem candidatesFrom_eq_error_iff {sites : List (SiteId × CallSite)} {found : FunctionSet}
    {bad : MalformedSite} :
    candidatesFrom m index callbacks found sites = .error bad ↔ FirstFault sites bad := by
  induction sites generalizing found with
  | nil => simp [candidatesFrom, FirstFault]
  | cons entry rest ih =>
    obtain ⟨id, site⟩ := entry
    rw [candidatesFrom_cons, firstFault_cons_iff]
    cases hfault : site.fault? with
    | none => simp [ih]
    | some fault => cases bad; simp

/-- A scan succeeds exactly when it meets well-formed sites only, and adds their
candidates one site after the other. -/
theorem candidatesFrom_eq_ok_iff {sites : List (SiteId × CallSite)} {found called : FunctionSet} :
    candidatesFrom m index callbacks found sites = .ok called ↔
      (∀ entry ∈ sites, entry.2.fault? = none) ∧
        sites.foldl (fun found entry => addTargets m index callbacks found entry.2) found =
          called := by
  induction sites generalizing found with
  | nil => simp [candidatesFrom]
  | cons entry rest ih =>
    obtain ⟨id, site⟩ := entry
    rw [candidatesFrom_cons]
    cases hfault : site.fault? with
    | none => simp [ih, hfault]
    | some fault => simp [hfault]

theorem mem_foldl_addTargets_iff (hm : m.Coherent) (hindex : index.Exact m p)
    {sites : List (SiteId × CallSite)}
    (hrefs : ∀ entry ∈ sites, ∀ f, .ref f ∈ entry.2.arguments → f ∈ m.members p)
    {found : FunctionSet} (hfound : found ⊆ m.members p) {g : FunctionId} :
    g ∈ sites.foldl (fun found entry => addTargets m index callbacks found entry.2) found ↔
      g ∈ found ∨ ∃ entry ∈ sites,
        entry.2.MayCall m p g ∨ callbacks = true ∧ entry.2.MayPass m p g := by
  induction sites generalizing found with
  | nil => simp
  | cons entry rest ih =>
    obtain ⟨hsite, hrest⟩ := List.forall_mem_cons.1 hrefs
    rw [List.foldl_cons, ih hrest (addTargets_subset_members hm hindex hfound hsite),
      mem_addTargets_iff hm hindex hfound hsite]
    simp [or_assoc]

/-- The candidates of a function of a consistent program. -/
theorem Model.Coherent.candidates_eq_ok (hm : m.Coherent) (hrefs : m.checkRefs p = .ok ())
    (hindex : index.Exact m p) {f : FunctionId} (hf : f ∈ m.members p) {called : FunctionSet}
    (h : m.candidates index callbacks f = .ok called) :
    (∀ entry ∈ m.sites f, entry.2.fault? = none) ∧
      ∀ g, g ∈ called ↔ ∃ entry ∈ m.sites f,
        entry.2.MayCall m p g ∨ callbacks = true ∧ entry.2.MayPass m p g := by
  obtain ⟨hfine, rfl⟩ := candidatesFrom_eq_ok_iff.1 h
  have harguments : ∀ entry ∈ m.sites f, ∀ g, .ref g ∈ entry.2.arguments → g ∈ m.members p :=
    fun entry hentry g hg => hm.mem_members_of_argument hrefs hf hentry hg
  refine ⟨hfine, fun g => ?_⟩
  simpa using mem_foldl_addTargets_iff hm hindex harguments (List.nil_subset _)

/-- What a call site of a consistent program passes is a defined function of
the program. -/
theorem Model.Coherent.mem_defined_of_mayPass (hm : m.Coherent)
    (hrefs : m.checkRefs p = .ok ()) {f g : FunctionId} (hf : f ∈ m.members p)
    {entry : SiteId × CallSite} (hentry : entry ∈ m.sites f) (h : entry.2.MayPass m p g) :
    g ∈ m.defined p := by
  obtain ⟨a, ha, hmay⟩ := h
  refine Model.mem_defined_iff.2 ⟨hmay.mem_members fun k href => ?_, hmay.not_isDeclaration⟩
  exact hm.mem_members_of_argument hrefs hf hentry (href ▸ ha)

/-- The candidates of a function are defined functions of the program. -/
theorem Model.Coherent.candidates_subset_defined (hm : m.Coherent)
    (hrefs : m.checkRefs p = .ok ()) (hindex : index.Exact m p) {f : FunctionId}
    (hf : f ∈ m.members p) {called : FunctionSet}
    (h : m.candidates index callbacks f = .ok called) : called ⊆ m.defined p := by
  intro g hg
  obtain ⟨entry, hentry, hcall | ⟨-, hpass⟩⟩ :=
    ((hm.candidates_eq_ok hrefs hindex hf h).2 g).1 hg
  · exact hcall.2.2
  · exact hm.mem_defined_of_mayPass hrefs hf hentry hpass

end Function

end CallReach
