import CallReach.Proofs.Outcome
import CallReach.Source.Reader

/-!
# What the reader accepts

The reader stops at the first fault.  Each lemma here says for one of its
functions when there is none: which form a tree has, and that its parts are
read.  Later proofs use these equivalences in both directions and do not open
the reader.
-/

namespace CallReach.Source

variable {form : Sexpr} {name tag : String} {operands : List Sexpr} {known : List String}

/-! ## Names and tagged lists -/

theorem knownNameOfSexpr_eq_ok_iff :
    knownNameOfSexpr known form = .ok name ↔ nameOfSexpr form = .ok name ∧ name ∈ known := by
  rw [knownNameOfSexpr, bind_eq_ok_iff]
  constructor
  · rintro ⟨found, hfound, hknown⟩
    split at hknown
    · rename_i hmem
      cases hknown
      exact ⟨hfound, by simpa using hmem⟩
    · cases hknown
  · rintro ⟨hname, hmem⟩
    exact ⟨name, hname, by simp [hmem, pure, Except.pure]⟩

theorem taggedOperands_eq_ok_iff {least : Nat} :
    taggedOperands tag least form = .ok operands ↔
      form = .list (.symbol tag :: operands) ∧ least ≤ operands.length := by
  unfold taggedOperands
  split
  · split
    · rename_i hne
      simp [mistakeAt, hne]
    · split
      · rename_i heq hshort
        simp only [mistakeAt, reduceCtorEq, false_iff, not_and]
        rintro ⟨⟩
        omega
      · rename_i heq hshort
        simp only [ne_eq, Decidable.not_not] at heq
        simp only [Except.ok.injEq, heq, Sexpr.list.injEq, List.cons.injEq, true_and]
        constructor
        · rintro rfl
          exact ⟨rfl, by omega⟩
        · exact fun h => h.1
  · rename_i head _ hhead
    simp only [mistakeAt, reduceCtorEq, false_iff, not_and]
    rintro ⟨⟩
    exact absurd rfl (hhead _)
  · rename_i hlist _
    simp only [mistakeAt, reduceCtorEq, false_iff, not_and]
    rintro rfl
    exact absurd rfl (hlist _ _)

theorem tagAndOperands_eq_ok_iff {missing : Cause} :
    tagAndOperands missing form = .ok (tag, operands) ↔ form = .list (.symbol tag :: operands) := by
  unfold tagAndOperands
  split <;> simp_all [mistakeAt]

/-- A signature form denotes a signature. -/
theorem isSignature_of_signatureOfSexpr {type : Ty} (h : signatureOfSexpr form = .ok type) :
    type.isSignature = true := by
  obtain ⟨operands, hoperands, htype⟩ := bind_eq_ok_iff.1 h
  obtain ⟨rfl, hlength⟩ := taggedOperands_eq_ok_iff.1 hoperands
  cases operands with
  | nil => simp at hlength
  | cons result params =>
    simp only [typeOfSexpr, if_true, bind_eq_ok_iff] at htype
    obtain ⟨resultType, -, ⟨types, variadic⟩, -, hsignature⟩ := htype
    cases hsignature
    rfl

/-! ## Calls and blocks -/

/-- Operands after those that are read are not looked at. -/
theorem Argument.ofSexpr_eq_ok_iff {argument : Argument} :
    Argument.ofSexpr known form = .ok argument ↔
      (∃ operand surplus name, form = .list (.symbol "ref" :: operand :: surplus) ∧
        knownNameOfSexpr known operand = .ok name ∧ argument = .ref name) ∨
      (∃ operand type, form = .list [.symbol "operand", operand] ∧
        typeOfSexpr operand = .ok type ∧ argument = .operand type none) ∨
      ∃ operand label surplus type name,
        form = .list (.symbol "operand" :: operand :: label :: surplus) ∧
        typeOfSexpr operand = .ok type ∧ nameOfSexpr label = .ok name ∧
        argument = .operand type (some name) := by
  constructor
  · intro h
    obtain ⟨⟨tag, operands⟩, htag, h⟩ := bind_eq_ok_iff.1 h
    obtain rfl := tagAndOperands_eq_ok_iff.1 htag
    dsimp only at h
    split at h
    · obtain ⟨name, hname, h⟩ := bind_eq_ok_iff.1 h
      cases h
      exact .inl ⟨_, _, name, rfl, hname, rfl⟩
    · cases h
    · obtain ⟨name, hname, h⟩ := bind_eq_ok_iff.1 h
      obtain ⟨type, htype, h⟩ := bind_eq_ok_iff.1 h
      cases h
      exact .inr (.inr ⟨_, _, _, type, name, rfl, htype, hname, rfl⟩)
    · obtain ⟨type, htype, h⟩ := bind_eq_ok_iff.1 h
      cases h
      exact .inr (.inl ⟨_, type, rfl, htype, rfl⟩)
    · cases h
    · cases h
  · rintro (⟨operand, surplus, name, rfl, hname, rfl⟩ | ⟨operand, type, rfl, htype, rfl⟩ |
      ⟨operand, label, surplus, type, name, rfl, htype, hname, rfl⟩)
    · simp [Argument.ofSexpr, tagAndOperands, hname, bind, Except.bind, pure, Except.pure]
    · simp [Argument.ofSexpr, tagAndOperands, htype, bind, Except.bind, pure, Except.pure]
    · simp [Argument.ofSexpr, tagAndOperands, htype, hname, bind, Except.bind, pure, Except.pure]

theorem Target.ofSexpr_eq_ok_iff {target : Target} :
    Target.ofSexpr known form = .ok target ↔
      (∃ name, knownNameOfSexpr known form = .ok name ∧ target = .named name) ∨
      ∃ operand surplus type, form = .list (.symbol "indirect" :: operand :: surplus) ∧
        signatureOfSexpr operand = .ok type ∧ target = .indirect type := by
  constructor
  · intro h
    unfold Target.ofSexpr at h
    split at h
    · obtain ⟨operands, hoperands, h⟩ := bind_eq_ok_iff.1 h
      obtain ⟨hform, -⟩ := taggedOperands_eq_ok_iff.1 hoperands
      split at h
      · obtain ⟨type, htype, h⟩ := bind_eq_ok_iff.1 h
        cases h
        exact .inr ⟨_, _, type, hform, htype, rfl⟩
      · cases h
    · obtain ⟨name, hname, h⟩ := bind_eq_ok_iff.1 h
      cases h
      exact .inl ⟨name, hname, rfl⟩
  · rintro (⟨name, hname, rfl⟩ | ⟨operand, surplus, type, rfl, htype, rfl⟩)
    · unfold Target.ofSexpr
      split
      · cases (knownNameOfSexpr_eq_ok_iff.1 hname).1
      · exact bind_eq_ok_iff.2 ⟨name, hname, rfl⟩
    · simp [Target.ofSexpr, taggedOperands, htype, bind, Except.bind, pure, Except.pure]

theorem callMode?_eq_some_iff {kind : CallMode} :
    callMode? tag = some kind ↔ tag = kind.word := by
  constructor
  · intro h
    unfold callMode? at h
    split at h
    · cases h
      rfl
    · cases h
      rfl
    · cases h
  · rintro rfl
    cases kind <;> rfl

theorem Call.ofSexpr_eq_ok_iff {call : Call} :
    Call.ofSexpr known form = .ok call ↔
      ∃ tag target arguments, form = .list (.symbol tag :: target :: arguments) ∧
        callMode? tag = some call.kind ∧ Target.ofSexpr known target = .ok call.target ∧
        List.Forall₂ (fun form argument => Argument.ofSexpr known form = .ok argument)
          arguments call.arguments := by
  unfold Call.ofSexpr
  rw [bind_eq_ok_iff]
  constructor
  · rintro ⟨⟨tag, operands⟩, htag, h⟩
    rw [tagAndOperands_eq_ok_iff] at htag
    dsimp only at h
    split at h
    · cases h
    · cases h
    · rename_i kind target arguments hkind
      obtain ⟨read, harguments, h⟩ := bind_eq_ok_iff.1 h
      obtain ⟨found, htarget, h⟩ := bind_eq_ok_iff.1 h
      cases h
      exact ⟨tag, target, arguments, htag, hkind, htarget, mapM_eq_ok_iff.1 harguments⟩
  · rintro ⟨tag, target, arguments, rfl, hkind, htarget, harguments⟩
    refine ⟨(tag, target :: arguments), rfl, ?_⟩
    simp only [hkind, mapM_eq_ok_iff.2 harguments, htarget]
    rfl

theorem Block.ofSexpr_eq_ok_iff {block : Block} :
    Block.ofSexpr known form = .ok block ↔
      ∃ name calls, form = .list (.symbol "block" :: name :: calls) ∧
        nameOfSexpr name = .ok block.name ∧
        List.Forall₂ (fun form call => Call.ofSexpr known form = .ok call) calls block.calls := by
  unfold Block.ofSexpr
  rw [bind_eq_ok_iff]
  constructor
  · rintro ⟨operands, hoperands, h⟩
    rw [taggedOperands_eq_ok_iff] at hoperands
    split at h
    · rename_i name calls
      obtain ⟨read, hname, h⟩ := bind_eq_ok_iff.1 h
      obtain ⟨found, hcalls, h⟩ := bind_eq_ok_iff.1 h
      cases h
      exact ⟨name, calls, hoperands.1, hname, mapM_eq_ok_iff.1 hcalls⟩
    · cases h
  · rintro ⟨name, calls, rfl, hname, hcalls⟩
    refine ⟨name :: calls, taggedOperands_eq_ok_iff.2 ⟨rfl, by simp⟩, ?_⟩
    simp only [hname, mapM_eq_ok_iff.2 hcalls]
    rfl

/-! ## Functions and programs -/

theorem Header.ofSexpr_eq_ok_iff {header : Header} :
    Header.ofSexpr form = .ok header ↔
      ∃ name type, nameOfSexpr name = .ok header.name ∧ signatureOfSexpr type = .ok header.type ∧
        (form = .list [.symbol "declare", name, type] ∧ header.body = none ∨
          ∃ blocks, form = .list (.symbol "define" :: name :: type :: blocks) ∧
            header.body = some blocks) := by
  constructor
  · intro h
    obtain ⟨⟨tag, operands⟩, htag, h⟩ := bind_eq_ok_iff.1 h
    obtain rfl := tagAndOperands_eq_ok_iff.1 htag
    dsimp only at h
    split at h
    · obtain ⟨name, hname, h⟩ := bind_eq_ok_iff.1 h
      obtain ⟨type, htype, h⟩ := bind_eq_ok_iff.1 h
      cases h
      exact ⟨_, _, hname, htype, .inl ⟨rfl, rfl⟩⟩
    · cases h
    · cases h
    · obtain ⟨name, hname, h⟩ := bind_eq_ok_iff.1 h
      obtain ⟨type, htype, h⟩ := bind_eq_ok_iff.1 h
      cases h
      exact ⟨_, _, hname, htype, .inr ⟨_, rfl, rfl⟩⟩
    · cases h
    · cases h
  · obtain ⟨headerName, headerType, body⟩ := header
    rintro ⟨name, type, hname, htype, ⟨rfl, rfl⟩ | ⟨blocks, rfl, rfl⟩⟩
    · simp [Header.ofSexpr, tagAndOperands, hname, htype, bind, Except.bind, pure, Except.pure]
    · simp [Header.ofSexpr, tagAndOperands, hname, htype, bind, Except.bind, pure, Except.pure]

theorem Header.complete_eq_ok_iff {header : Header} {function : Function} :
    header.complete known = .ok function ↔
      function.name = header.name ∧ function.type = header.type ∧
        Option.Rel (List.Forall₂ fun form block => Block.ofSexpr known form = .ok block)
          header.body function.body := by
  unfold Header.complete
  constructor
  · intro h
    split at h
    · rename_i hbody
      cases h
      rw [hbody]
      exact ⟨rfl, rfl, .none⟩
    · rename_i forms hbody
      obtain ⟨blocks, hblocks, h⟩ := bind_eq_ok_iff.1 h
      cases h
      rw [hbody]
      exact ⟨rfl, rfl, .some (mapM_eq_ok_iff.1 hblocks)⟩
  · obtain ⟨name, type, body⟩ := function
    rintro ⟨rfl, rfl, hbody⟩
    cases hforms : header.body with
    | none =>
      rw [hforms] at hbody
      cases hbody
      rfl
    | some forms =>
      rw [hforms] at hbody
      cases hbody with
      | some hblocks =>
        simp only [mapM_eq_ok_iff.2 hblocks]
        rfl

/-- Completing headers does not change the names. -/
theorem Header.map_name_complete {headers : List Header} {functions : List Function}
    (h : List.Forall₂ (fun header function => header.complete known = .ok function)
      headers functions) : functions.map (·.name) = headers.map (·.name) := by
  induction h with
  | nil => rfl
  | cons hheader _ ih =>
    rw [List.map_cons, List.map_cons, ih, (Header.complete_eq_ok_iff.1 hheader).1]

theorem Header.ofSexprs_eq_ok_iff {seen : List String} {forms : List Sexpr}
    {headers : List Header} :
    Header.ofSexprs seen forms = .ok headers ↔
      List.Forall₂ (fun form header => Header.ofSexpr form = .ok header) forms headers ∧
        (headers.map (·.name)).Nodup ∧ ∀ header ∈ headers, header.name ∉ seen := by
  induction forms generalizing seen headers with
  | nil =>
    simp only [Header.ofSexprs, Except.ok.injEq, List.forall₂_nil_left_iff]
    constructor
    · rintro rfl
      simp
    · exact fun h => h.1.symm
  | cons form rest ih =>
    rw [Header.ofSexprs, bind_eq_ok_iff, List.forall₂_cons_left_iff]
    constructor
    · rintro ⟨header, hheader, h⟩
      split at h
      · cases h
      · rename_i hnew
        obtain ⟨others, hothers, h⟩ := bind_eq_ok_iff.1 h
        cases h
        obtain ⟨hforms, hnodup, hseen⟩ := ih.1 hothers
        simp only [List.mem_cons, not_or] at hseen
        refine ⟨⟨header, others, hheader, hforms, rfl⟩, ?_, ?_⟩
        · simp only [List.map_cons, List.nodup_cons, List.mem_map, not_exists, not_and]
          exact ⟨fun other hother => (hseen other hother).1, hnodup⟩
        · simp only [List.mem_cons, forall_eq_or_imp]
          exact ⟨by simpa using hnew, fun other hother => (hseen other hother).2⟩
    · rintro ⟨⟨header, others, hheader, hforms, rfl⟩, hnodup, hseen⟩
      simp only [List.map_cons, List.nodup_cons, List.mem_map, not_exists, not_and] at hnodup
      simp only [List.mem_cons, forall_eq_or_imp] at hseen
      have hothers : Header.ofSexprs (header.name :: seen) rest = .ok others := by
        refine ih.2 ⟨hforms, hnodup.2, fun other hother => ?_⟩
        simp only [List.mem_cons, not_or]
        exact ⟨hnodup.1 other hother, hseen.2 other hother⟩
      refine ⟨header, hheader, ?_⟩
      rw [if_neg (by simpa using hseen.1), hothers]
      rfl

theorem Program.ofSexpr_eq_ok_iff {source : Program} :
    Program.ofSexpr form = .ok source ↔
      ∃ operands items headers, form = .list (.symbol "program" :: operands) ∧
        splitProgramName operands = .ok (source.name, items) ∧
        List.Forall₂ (fun form header => Header.ofSexpr form = .ok header) items headers ∧
        (headers.map (·.name)).Nodup ∧
        List.Forall₂ (fun header function =>
          header.complete (headers.map (·.name)) = .ok function) headers source.functions := by
  unfold Program.ofSexpr
  rw [bind_eq_ok_iff]
  constructor
  · rintro ⟨operands, hoperands, h⟩
    obtain ⟨⟨name, items⟩, hsplit, h⟩ := bind_eq_ok_iff.1 h
    obtain ⟨headers, hheaders, h⟩ := bind_eq_ok_iff.1 h
    obtain ⟨functions, hfunctions, h⟩ := bind_eq_ok_iff.1 h
    cases h
    obtain ⟨hforms, hnodup, -⟩ := Header.ofSexprs_eq_ok_iff.1 hheaders
    exact ⟨operands, items, headers, (taggedOperands_eq_ok_iff.1 hoperands).1, hsplit, hforms,
      hnodup, mapM_eq_ok_iff.1 hfunctions⟩
  · rintro ⟨operands, items, headers, rfl, hsplit, hforms, hnodup, hfunctions⟩
    refine ⟨operands, taggedOperands_eq_ok_iff.2 ⟨rfl, Nat.zero_le _⟩, ?_⟩
    have hheaders : Header.ofSexprs [] items = .ok headers :=
      Header.ofSexprs_eq_ok_iff.2 ⟨hforms, hnodup, by simp⟩
    simp only [hsplit, hheaders, mapM_eq_ok_iff.2 hfunctions, bind, Except.bind]
    rfl

end CallReach.Source
