import CallReach.Proofs.Resolution

/-!
# The candidates of one function

The search for the candidates of a function goes through the call sites of its
body.  It ends in one of two ways: it reports the first malformed site, or it
returns the functions that the sites may call and pass, each once.

There are three groups.

* Malformed call sites.  `CallSite.Malformed` says what makes a site malformed
  and `CallSite.Faulty` which fault is reported of it, both without the check
  itself; `fault?_eq_some_iff` and `fault?_eq_none_iff` compare them with it.
* The first malformed site.  `firstFault_sites_iff` turns the order of the scan
  into positions in the body.
* Candidates.  `candidates_eq_error_iff` and `mem_candidates_iff` describe the
  two endings, `sameEnding_candidates` says that all exact indexes give the same
  one, and `candidates_exact` puts them together for an index of the functions
  of a program in any order.
-/

namespace CallReach

/-! ## Malformed call sites -/

theorem Argument.isOther_iff {argument : Argument} :
    argument.isOther = true ↔ ∃ value, argument = .other value := by
  cases argument <;> simp [isOther]

/-- An argument is reported by its position when it is neither a function nor an
operand and no argument before it is such. -/
theorem argumentFault?_eq_some_iff {arguments : List Argument} {fault : SiteFault} :
    argumentFault? arguments = some fault ↔
      ∃ position value, fault = .badArgument position ∧
        arguments[position]? = some (.other value) ∧
        ∀ i < position, ∀ value, arguments[i]? ≠ some (.other value) := by
  simp only [argumentFault?, Option.map_eq_some_iff, List.findIdx?_eq_some_iff_getElem]
  constructor
  · rintro ⟨position, ⟨hlt, hother, hbefore⟩, rfl⟩
    obtain ⟨value, hvalue⟩ := Argument.isOther_iff.1 hother
    refine ⟨position, value, rfl, by rw [List.getElem?_eq_getElem hlt, hvalue], ?_⟩
    intro i hi value hi'
    obtain ⟨_, heq⟩ := List.getElem?_eq_some_iff.1 hi'
    exact hbefore i hi (Argument.isOther_iff.2 ⟨value, heq⟩)
  · rintro ⟨position, value, rfl, hvalue, hbefore⟩
    obtain ⟨hlt, heq⟩ := List.getElem?_eq_some_iff.1 hvalue
    refine ⟨position, ⟨hlt, Argument.isOther_iff.2 ⟨value, heq⟩, fun i hi hother => ?_⟩, rfl⟩
    obtain ⟨value', heq'⟩ := Argument.isOther_iff.1 hother
    exact hbefore i hi value' (List.getElem?_eq_some_iff.2 ⟨_, heq'⟩)

theorem argumentFault?_eq_none_iff {arguments : List Argument} :
    argumentFault? arguments = none ↔ ∀ value, .other value ∉ arguments := by
  rw [argumentFault?, Option.map_eq_none_iff, List.findIdx?_eq_none_iff]
  constructor
  · intro h value hmem
    simpa [Argument.isOther] using h _ hmem
  · intro h argument hmem
    refine Bool.eq_false_iff.2 fun hother => ?_
    obtain ⟨value, rfl⟩ := Argument.isOther_iff.1 hother
    exact h value hmem

namespace CallSite

/-- A call site is malformed when its callee is something that is not a
function, when it has no callee and its called type is not a signature, or when
an argument is neither a function nor an operand. -/
inductive Malformed (site : CallSite) : Prop where
  | callee {value : Json} (h : site.callee = .other value)
  | type (h : site.callee = .absent)
      (hnone : ∀ result params variadic,
        site.calledType ≠ some (.signature result params variadic))
  | argument {value : Json} (h : .other value ∈ site.arguments)

/-- A call calls a function, or whatever has a known signature. -/
inductive HasTarget (site : CallSite) : Prop where
  | function {g : FunctionId} (h : site.callee = .function g)
  | indirect {result : Ty} {params : List Ty} {variadic : Bool} (h : site.callee = .absent)
      (htype : site.calledType = some (.signature result params variadic))

/-- The fault that a call site is reported with.  What is called comes before
the arguments, and the arguments come from left to right. -/
inductive Faulty (site : CallSite) : SiteFault → Prop where
  | callee {value : Json} (h : site.callee = .other value) :
      site.Faulty (.calleeNotFunction value)
  | type (h : site.callee = .absent)
      (hnone : ∀ result params variadic,
        site.calledType ≠ some (.signature result params variadic)) :
      site.Faulty .missingSignature
  | argument {position : Nat} {value : Json} (htarget : site.HasTarget)
      (h : site.arguments[position]? = some (.other value))
      (hfirst : ∀ i < position, ∀ value, site.arguments[i]? ≠ some (.other value)) :
      site.Faulty (.badArgument position)

variable {site : CallSite} {fault : SiteFault}

theorem fault?_of_callee {value : Json} (h : site.callee = .other value) :
    site.fault? = some (.calleeNotFunction value) := by
  rw [fault?, h]

theorem fault?_of_type (h : site.callee = .absent)
    (hnone : ∀ result params variadic,
      site.calledType ≠ some (.signature result params variadic)) :
    site.fault? = some .missingSignature := by
  have huntyped : (site.calledType.map Ty.isSignature).getD false = false := by
    cases htype : site.calledType with
    | none => rfl
    | some type =>
      cases type with
      | scalar => rfl
      | pointer => rfl
      | signature result params variadic => exact absurd htype (hnone result params variadic)
  simp [fault?, h, huntyped]

/-- Only the arguments of a call with a target are left to be checked. -/
theorem HasTarget.fault?_eq (h : site.HasTarget) :
    site.fault? = argumentFault? site.arguments := by
  cases h with
  | function h => rw [fault?, h]
  | indirect h htype => simp [fault?, h, htype, Ty.isSignature]

/-- The three kinds of callees, as the check tells them apart. -/
theorem target_cases (site : CallSite) :
    (∃ value, site.callee = .other value) ∨
      (site.callee = .absent ∧ ∀ result params variadic,
        site.calledType ≠ some (.signature result params variadic)) ∨
      site.HasTarget := by
  cases hcallee : site.callee with
  | other value => exact .inl ⟨value, rfl⟩
  | function g => exact .inr (.inr (.function hcallee))
  | absent =>
    by_cases htyped : ∃ result params variadic,
        site.calledType = some (.signature result params variadic)
    · obtain ⟨result, params, variadic, htype⟩ := htyped
      exact .inr (.inr (.indirect hcallee htype))
    · refine .inr (.inl ⟨rfl, fun result params variadic htype => ?_⟩)
      exact htyped ⟨result, params, variadic, htype⟩

/-- The check reports the fault of a call site. -/
theorem fault?_eq_some_iff : site.fault? = some fault ↔ site.Faulty fault := by
  constructor
  · intro h
    rcases site.target_cases with ⟨value, hcallee⟩ | ⟨habsent, hnone⟩ | htarget
    · rw [fault?_of_callee hcallee] at h
      cases h
      exact .callee hcallee
    · rw [fault?_of_type habsent hnone] at h
      cases h
      exact .type habsent hnone
    · rw [htarget.fault?_eq] at h
      obtain ⟨position, value, rfl, hvalue, hfirst⟩ := argumentFault?_eq_some_iff.1 h
      exact .argument htarget hvalue hfirst
  · intro h
    cases h with
    | callee h => exact fault?_of_callee h
    | type h hnone => exact fault?_of_type h hnone
    | argument htarget hvalue hfirst =>
      rw [htarget.fault?_eq]
      exact argumentFault?_eq_some_iff.2 ⟨_, _, rfl, hvalue, hfirst⟩

theorem Faulty.malformed (h : site.Faulty fault) : site.Malformed := by
  cases h with
  | callee h => exact .callee h
  | type h hnone => exact .type h hnone
  | argument _ h _ => exact .argument (List.mem_of_getElem? h)

/-- The check passes exactly the call sites that are not malformed. -/
theorem fault?_eq_none_iff : site.fault? = none ↔ ¬site.Malformed := by
  constructor
  · intro h hbad
    cases hbad with
    | callee hcallee => simp [fault?_of_callee hcallee] at h
    | type habsent hnone => simp [fault?_of_type habsent hnone] at h
    | argument hargument =>
      -- A bad argument may stand beside a bad callee, which is found before it.
      rcases site.target_cases with ⟨value, hcallee⟩ | ⟨habsent, hnone⟩ | htarget
      · simp [fault?_of_callee hcallee] at h
      · simp [fault?_of_type habsent hnone] at h
      · rw [htarget.fault?_eq] at h
        exact argumentFault?_eq_none_iff.1 h _ hargument
  · intro h
    refine Option.eq_none_iff_forall_ne_some.2 fun fault hfault => h ?_
    exact (fault?_eq_some_iff.1 hfault).malformed

end CallSite

/-! ## The first malformed site -/

/-- One site of a body stands before another: in an earlier block, or earlier in
the same block. -/
def SiteId.Before (id other : SiteId) : Prop :=
  id.block.index < other.block.index ∨
    id.block.index = other.block.index ∧ id.index < other.index

theorem SiteId.Before.asymm {id other : SiteId} (h : id.Before other) : ¬other.Before id := by
  unfold Before at h ⊢
  omega

theorem pairwise_zipIdx {α : Type} (l : List α) : l.zipIdx.Pairwise fun a b => a.2 < b.2 := by
  have hpositions : (l.zipIdx.map Prod.snd).Pairwise (· < ·) := by
    rw [List.zipIdx_map_snd]
    exact List.pairwise_lt_range' 1
  exact List.pairwise_map.1 hpositions

namespace Model

variable {m : Model} {f : FunctionId} {bad : MalformedSite}

/-- The first malformed site in the body of a function, and its fault. -/
def FirstMalformed (m : Model) (f : FunctionId) (bad : MalformedSite) : Prop :=
  (∃ site, m.HasSite f bad.site site ∧ site.Faulty bad.fault) ∧
    ∀ id site, m.HasSite f id site → id.Before bad.site → ¬site.Malformed

/-- The call sites of a function come in the order of its body. -/
theorem pairwise_sites (m : Model) (f : FunctionId) :
    (m.sites f).Pairwise fun entry other => entry.1.Before other.1 := by
  rw [sites, List.pairwise_flatMap]
  constructor
  · rintro ⟨block, i⟩ -
    rw [List.pairwise_map]
    exact (pairwise_zipIdx block.sites).imp fun hlt => .inr ⟨rfl, hlt⟩
  · refine (pairwise_zipIdx (m.blocks f)).imp fun hlt entry hentry other hother => ?_
    obtain ⟨_, -, rfl⟩ := List.mem_map.1 hentry
    obtain ⟨_, -, rfl⟩ := List.mem_map.1 hother
    exact .inl hlt

/-- What the scan of a body comes upon first is what stands first in it. -/
theorem firstFault_sites_iff : FirstFault (m.sites f) bad ↔ m.FirstMalformed f bad := by
  have hordered := m.pairwise_sites f
  constructor
  · rintro ⟨before, site, after, heq, hbefore, hfault⟩
    have hsite : (bad.site, site) ∈ m.sites f := by simp [heq]
    refine ⟨⟨site, mem_sites_iff.1 hsite, CallSite.fault?_eq_some_iff.1 hfault⟩, ?_⟩
    intro id other hother hearlier
    have hmem := mem_sites_iff.2 hother
    rw [heq, List.pairwise_append, List.pairwise_cons] at hordered
    rw [heq, List.mem_append, List.mem_cons] at hmem
    -- An earlier site is neither the reported one nor one of those after it.
    rcases hmem with hmem | hmem | hmem
    · exact CallSite.fault?_eq_none_iff.1 (hbefore _ hmem)
    · cases hmem
      exact absurd hearlier hearlier.asymm
    · exact absurd hearlier (hordered.2.1.1 _ hmem).asymm
  · rintro ⟨⟨site, hsite, hfaulty⟩, hfine⟩
    obtain ⟨before, after, heq⟩ := List.append_of_mem (mem_sites_iff.2 hsite)
    refine ⟨before, site, after, heq, ?_, CallSite.fault?_eq_some_iff.2 hfaulty⟩
    intro entry hentry
    have hearlier : entry.1.Before bad.site := by
      rw [heq, List.pairwise_append] at hordered
      exact hordered.2.2 entry hentry _ List.mem_cons_self
    have hmem : entry ∈ m.sites f := by simp [heq, hentry]
    exact CallSite.fault?_eq_none_iff.2 (hfine _ _ (mem_sites_iff.1 hmem) hearlier)

end Model

/-! ## Candidates -/

section Candidates

variable {m : Model} {p : ProgramId} {index : TypeIndex} {callbacks : Bool} {f : FunctionId}
  {functions : List FunctionId} {called : FunctionSet} {bad : MalformedSite}

/-- The functions that a function may invoke indirectly: the defined functions
of the program that one of its sites may call or, with `callbacks`, pass. -/
def Model.MayInvoke (m : Model) (p : ProgramId) (callbacks : Bool) (f g : FunctionId) : Prop :=
  g ∈ m.defined p ∧ ∃ id site, m.HasSite f id site ∧
    (site.MayCall m p g ∨ callbacks = true ∧ site.MayPass m p g)

/-- Two searches end alike: with the same malformed site, or with the same
functions. -/
inductive SameEnding :
    Except MalformedSite FunctionSet → Except MalformedSite FunctionSet → Prop where
  | error (bad : MalformedSite) : SameEnding (.error bad) (.error bad)
  | ok {called other : FunctionSet} (h : called.Perm other) : SameEnding (.ok called) (.ok other)

theorem candidates_eq_error_iff :
    m.candidates index callbacks f = .error bad ↔ m.FirstMalformed f bad := by
  rw [Model.candidates, candidatesFrom_eq_error_iff, Model.firstFault_sites_iff]

/-- Candidates are gathered in a set, so each is there once. -/
theorem nodup_candidates (h : m.candidates index callbacks f = .ok called) : called.Nodup := by
  have hadd : ∀ (found : FunctionSet) (site : CallSite), found.Nodup →
      (addTargets m index callbacks found site).Nodup := by
    intro found site hfound
    unfold addTargets
    split
    · exact Model.nodup_union (Model.nodup_union hfound _) _
    · exact Model.nodup_union hfound _
  obtain ⟨-, rfl⟩ := candidatesFrom_eq_ok_iff.1 h
  exact List.foldlRecOn _ _ List.nodup_nil fun found hfound entry _ => hadd found entry.2 hfound

/-- A search that succeeds has met no malformed site. -/
theorem not_malformed_of_candidates (h : m.candidates index callbacks f = .ok called) {id : SiteId}
    {site : CallSite} (hsite : m.HasSite f id site) : ¬site.Malformed :=
  CallSite.fault?_eq_none_iff.1 ((candidatesFrom_eq_ok_iff.1 h).1 _ (Model.mem_sites_iff.2 hsite))

/-- A search fails exactly when there is a malformed site, whatever counts as a
candidate. -/
theorem exists_candidates_eq_error_iff :
    (∃ bad, m.candidates index callbacks f = .error bad) ↔
      ∃ id site, m.HasSite f id site ∧ site.Malformed := by
  constructor
  · rintro ⟨bad, hbad⟩
    obtain ⟨⟨site, hsite, hfaulty⟩, -⟩ := candidates_eq_error_iff.1 hbad
    exact ⟨bad.site, site, hsite, hfaulty.malformed⟩
  · rintro ⟨id, site, hsite, hmalformed⟩
    cases hends : m.candidates index callbacks f with
    | error bad => exact ⟨bad, rfl⟩
    | ok called => exact absurd hmalformed (not_malformed_of_candidates hends hsite)

/-- A search that succeeds returns what the function may invoke. -/
theorem mem_candidates_iff (hm : m.Coherent) (hrefs : m.checkRefs p = .ok ())
    (hindex : index.Exact m p) (hf : f ∈ m.members p)
    (h : m.candidates index callbacks f = .ok called) {g : FunctionId} :
    g ∈ called ↔ m.MayInvoke p callbacks f g := by
  obtain ⟨-, hcalled⟩ := hm.candidates_eq_ok hrefs hindex hf h
  constructor
  · intro hg
    obtain ⟨⟨id, site⟩, hsite, hmay⟩ := (hcalled g).1 hg
    exact ⟨hm.candidates_subset_defined hrefs hindex hf h hg, id, site,
      Model.mem_sites_iff.1 hsite, hmay⟩
  · rintro ⟨-, id, site, hsite, hmay⟩
    exact (hcalled g).2 ⟨(id, site), Model.mem_sites_iff.2 hsite, hmay⟩

/-- Searches with two exact indexes end alike. -/
theorem sameEnding_candidates (hm : m.Coherent) (hrefs : m.checkRefs p = .ok ())
    (hindex : index.Exact m p) {other : TypeIndex} (hother : other.Exact m p)
    (hf : f ∈ m.members p) (callbacks : Bool) :
    SameEnding (m.candidates index callbacks f) (m.candidates other callbacks f) := by
  cases hends : m.candidates index callbacks f with
  | error bad =>
    -- What is first malformed does not depend on an index.
    have hsame : m.candidates other callbacks f = .error bad :=
      candidates_eq_error_iff.2 (candidates_eq_error_iff.1 hends)
    rw [hsame]
    exact .error bad
  | ok called =>
    cases hends' : m.candidates other callbacks f with
    | error bad =>
      have hbad : m.candidates index callbacks f = .error bad :=
        candidates_eq_error_iff.2 (candidates_eq_error_iff.1 hends')
      simp [hends] at hbad
    | ok called' =>
      refine .ok ((List.perm_ext_iff_of_nodup (nodup_candidates hends)
        (nodup_candidates hends')).2 fun g => ?_)
      rw [mem_candidates_iff hm hrefs hindex hf hends, mem_candidates_iff hm hrefs hother hf hends']

/-- The search for the candidates of a function, with an index of the functions
of its program in any order.  It fails exactly when a call site of the function
is malformed, and reports the first such site of the body.  Otherwise it
returns the functions that the function may invoke indirectly, each once.  The
order in which the index was built does not matter. -/
theorem Model.candidates_exact (hmade : m.Made) (hvalid : m.checkRefs p = .ok ())
    (hf : f ∈ m.members p) (hlisted : functions.Perm (m.members p)) (callbacks : Bool) :
    ((∃ bad, m.candidates (.build m functions) callbacks f = .error bad) ↔
        ∃ id site, m.HasSite f id site ∧ site.Malformed) ∧
      (∀ bad, m.candidates (.build m functions) callbacks f = .error bad ↔
        m.FirstMalformed f bad) ∧
      ((∀ id site, m.HasSite f id site → ¬site.Malformed) →
        ∃ called, m.candidates (.build m functions) callbacks f = .ok called ∧ called.Nodup ∧
          ∀ g, g ∈ called ↔ m.MayInvoke p callbacks f g) ∧
      ∀ other : List FunctionId, other.Perm (m.members p) →
        SameEnding (m.candidates (.build m functions) callbacks f)
          (m.candidates (.build m other) callbacks f) := by
  have hm := hmade.coherent
  have hindex : (TypeIndex.build m functions).Exact m p :=
    TypeIndex.exact_build hm fun _ => hlisted.mem_iff
  refine ⟨exists_candidates_eq_error_iff, fun bad => candidates_eq_error_iff, ?_, ?_⟩
  · intro hfine
    cases hends : m.candidates (.build m functions) callbacks f with
    | error bad =>
      obtain ⟨id, site, hsite, hmalformed⟩ := exists_candidates_eq_error_iff.1 ⟨bad, hends⟩
      exact absurd hmalformed (hfine id site hsite)
    | ok called =>
      exact ⟨called, rfl, nodup_candidates hends, fun g =>
        mem_candidates_iff hm hvalid hindex hf hends⟩
  · intro other hother
    exact sameEnding_candidates hm hvalid hindex
      (TypeIndex.exact_build hm fun _ => hother.mem_iff) hf callbacks

namespace Dispatch

open Model.Relay (handler worker)

/-- The edits that make a program whose types mislead.  `main` passes a pointer
to some handler, and then a pointer to such a pointer and a number, which are
no functions although `counter` has the type of the latter; what it calls in
its second block is some worker.  The second block of `idle` begins with a call
that has a bad argument, and goes on with one that has no type. -/
def edits : List Edit :=
  [.newProgram "dispatch", .create ⟨0⟩ "main" worker true, .create ⟨0⟩ "onEvent" handler true,
   .create ⟨0⟩ "onDone" handler true, .create ⟨0⟩ "log" handler false,
   .create ⟨0⟩ "counter" (.scalar "i32") true, .create ⟨0⟩ "idle" worker true,
   .newBlock ⟨0⟩ none, .newBlock ⟨0⟩ none,
   .newCall ⟨⟨0⟩, 0⟩ (.function ⟨3⟩) [.operand (.pointer handler) none,
     .operand (.pointer (.pointer worker)) none, .operand (.scalar "i32") none, .ref ⟨3⟩]
     none .call,
   .newCall ⟨⟨0⟩, 1⟩ .absent [.ref ⟨1⟩] (some worker) .invoke,
   .newBlock ⟨5⟩ none, .newBlock ⟨5⟩ none,
   .newCall ⟨⟨5⟩, 1⟩ .absent [.ref ⟨1⟩, .other .null] (some handler) .call,
   .newCall ⟨⟨5⟩, 1⟩ .absent [] none .call,
   .newCall ⟨⟨5⟩, 0⟩ (.function ⟨0⟩) [] none .call]

/-- The model that these edits make. -/
def model : Model where
  functions := #[
    ⟨"main", worker, some [
      ⟨"bb0", [⟨.function ⟨3⟩, some handler, [.operand (.pointer handler) none,
        .operand (.pointer (.pointer worker)) none, .operand (.scalar "i32") none, .ref ⟨3⟩],
        .call⟩]⟩,
      ⟨"bb1", [⟨.absent, some worker, [.ref ⟨1⟩], .invoke⟩]⟩], some ⟨0⟩⟩,
    ⟨"onEvent", handler, some [], some ⟨0⟩⟩,
    ⟨"onDone", handler, some [], some ⟨0⟩⟩,
    ⟨"log", handler, none, some ⟨0⟩⟩,
    ⟨"counter", .scalar "i32", some [], some ⟨0⟩⟩,
    ⟨"idle", worker, some [
      ⟨"bb0", [⟨.function ⟨0⟩, some worker, [], .call⟩]⟩,
      ⟨"bb1", [⟨.absent, some handler, [.ref ⟨1⟩, .other .null], .call⟩,
        ⟨.absent, none, [], .call⟩]⟩], some ⟨0⟩⟩]
  programs := #[⟨"dispatch", 15, [("main", ⟨0⟩), ("onEvent", ⟨1⟩), ("onDone", ⟨2⟩),
    ("log", ⟨3⟩), ("counter", ⟨4⟩), ("idle", ⟨5⟩)]⟩]

theorem made : model.Made :=
  Model.Made.empty.applyAll (show Edit.applyAll .empty edits = some model from rfl)

end Dispatch

/-- With the functions listed backwards, `main` may invoke both handlers and both
workers, and `idle` is reported with its first malformed site even when callbacks
do not count. -/
theorem Model.candidates_exact_dispatch :
    Dispatch.model.candidates (.build Dispatch.model [⟨5⟩, ⟨4⟩, ⟨3⟩, ⟨2⟩, ⟨1⟩, ⟨0⟩]) true ⟨0⟩ =
        .ok [⟨2⟩, ⟨1⟩, ⟨5⟩, ⟨0⟩] ∧
      (∀ g, g ∈ ([⟨2⟩, ⟨1⟩, ⟨5⟩, ⟨0⟩] : List FunctionId) ↔
        Dispatch.model.MayInvoke ⟨0⟩ true ⟨0⟩ g) ∧
      Dispatch.model.FirstMalformed ⟨5⟩ ⟨⟨⟨⟨5⟩, 1⟩, 0⟩, .badArgument 1⟩ := by
  have hlisted : [⟨5⟩, ⟨4⟩, ⟨3⟩, ⟨2⟩, ⟨1⟩, ⟨0⟩].Perm (Dispatch.model.members ⟨0⟩) := by decide
  have hends : Dispatch.model.candidates
      (.build Dispatch.model [⟨5⟩, ⟨4⟩, ⟨3⟩, ⟨2⟩, ⟨1⟩, ⟨0⟩]) true ⟨0⟩ =
        .ok [⟨2⟩, ⟨1⟩, ⟨5⟩, ⟨0⟩] := rfl
  obtain ⟨hfails, -, hreturns, -⟩ :=
    candidates_exact (f := ⟨0⟩) Dispatch.made rfl (by decide) hlisted true
  obtain ⟨-, hreports, -, -⟩ :=
    candidates_exact (f := ⟨5⟩) Dispatch.made rfl (by decide) hlisted false
  refine ⟨hends, ?_, (hreports _).1 rfl⟩
  have hfine : ∀ id site, Dispatch.model.HasSite ⟨0⟩ id site → ¬site.Malformed := by
    intro id site hsite hmalformed
    obtain ⟨bad, hbad⟩ := hfails.2 ⟨id, site, hsite, hmalformed⟩
    simp [hends] at hbad
  obtain ⟨called, hcalled, -, hmem⟩ := hreturns hfine
  rw [hends] at hcalled
  cases hcalled
  exact hmem

end Candidates

end CallReach
