import CallReach.Proofs.Source.Analysable
import CallReach.Proofs.Source.Grammar

/-!
# Operands that the reader passes over

The reader looks at one operand of a `ref` or an `indirect` and at no more than
two of an `operand`.  What follows them is not looked at, so it may be anything.
`trim` takes it away, at every depth.

* `TypeForm.trim_eq_iff`: no type has such operands, so trimming neither makes a
  type out of a tree nor changes one.
* One equivalence for each kind of form: it is read exactly when the trimmed
  tree is a form of the grammar and names known functions.
* `ProgramForm.trim_eq`: forms of the grammar have no surplus, so they are read
  as they stand (`ProgramForm.read`).

`Program.ofSexpr_ignores_surplus` is the result: reading a tree is reading the
trimmed tree by the grammar, and a tree that is read is one of the grammar
exactly when there was nothing to trim.
-/

namespace CallReach.Source

/-! ## Trimming -/

/-- The operands of a tag that count. -/
def countedOperands (tag : String) (operands : List Sexpr) : List Sexpr :=
  match tag with
  | "ref" | "indirect" => operands.take 1
  | "operand" => operands.take 2
  | _ => operands

/-- The items of a list with the operands that count for its tag. -/
def countedItems : List Sexpr → List Sexpr
  | .symbol tag :: operands => .symbol tag :: countedOperands tag operands
  | items => items

mutual
/-- A tree without the operands that the reader passes over. -/
def trim : Sexpr → Sexpr
  | .list items => .list (countedItems (trimAll items))
  | form => form

/-- Trees without the operands that the reader passes over. -/
def trimAll : List Sexpr → List Sexpr
  | [] => []
  | item :: rest => trim item :: trimAll rest
end

theorem trimAll_eq_map (items : List Sexpr) : trimAll items = items.map trim := by
  induction items with
  | nil => rfl
  | cons item rest ih => rw [trimAll, ih, List.map_cons]

@[simp]
theorem trim_tagged (tag : String) (operands : List Sexpr) :
    trim (.list (.symbol tag :: operands)) =
      .list (.symbol tag :: countedOperands tag (operands.map trim)) := by
  rw [trim, trimAll, trimAll_eq_map, trim]
  · rfl
  · simp

theorem trim_eq_symbol_iff {form : Sexpr} {name : String} :
    trim form = .symbol name ↔ form = .symbol name := by
  cases form <;> simp [trim]

theorem trim_eq_text_iff {form : Sexpr} {value : String} :
    trim form = .text value ↔ form = .text value := by
  cases form <;> simp [trim]

/-- What is tagged after trimming had that tag before. -/
theorem trim_eq_tagged_iff {form : Sexpr} {tag : String} {counted : List Sexpr} :
    trim form = .list (.symbol tag :: counted) ↔
      ∃ operands, form = .list (.symbol tag :: operands) ∧
        countedOperands tag (operands.map trim) = counted := by
  constructor
  · intro h
    cases form with
    | list items =>
      cases items with
      | nil => simp [trim, trimAll, countedItems] at h
      | cons head operands =>
        cases head with
        | symbol found =>
          simp only [trim_tagged, Sexpr.list.injEq, List.cons.injEq, Sexpr.symbol.injEq] at h
          obtain ⟨rfl, h⟩ := h
          exact ⟨operands, rfl, h⟩
        | _ => simp [trim, trimAll, countedItems] at h
    | _ => simp [trim] at h
  · rintro ⟨operands, rfl, rfl⟩
    exact trim_tagged tag operands

/-! ## Names and types -/

theorem NameForm.trim_eq_iff {form named : Sexpr} {name : String} (h : NameForm named name) :
    trim form = named ↔ form = named := by
  cases h with
  | symbol => exact trim_eq_symbol_iff
  | text => exact trim_eq_text_iff

mutual

theorem TypeForm.trim_eq_iff : ∀ {typed : Sexpr} {type : Ty}, TypeForm typed type →
    ∀ form, trim form = typed ↔ form = typed
  | _, _, .spelled hname _, _ => hname.trim_eq_iff
  | _, _, .pointer h, form => by
      rw [trim_eq_tagged_iff]
      constructor
      · rintro ⟨operands, rfl, hoperands⟩
        obtain ⟨operand, rfl, hoperand⟩ := List.map_eq_singleton_iff.1 hoperands
        rw [(h.trim_eq_iff operand).1 hoperand]
      · rintro rfl
        exact ⟨_, rfl, by simp [countedOperands, (h.trim_eq_iff _).2 rfl]⟩
  | _, _, .signature h, form => h.trim_eq_iff form

theorem SignatureForm.trim_eq_iff : ∀ {typed : Sexpr} {type : Ty}, SignatureForm typed type →
    ∀ form, trim form = typed ↔ form = typed
  | _, _, .fn hresult hparams, form => by
      rw [trim_eq_tagged_iff]
      constructor
      · rintro ⟨operands, rfl, hoperands⟩
        obtain ⟨result, params, rfl, hresult', hparams'⟩ := List.map_eq_cons_iff.1 hoperands
        rw [(hresult.trim_eq_iff result).1 hresult', (hparams.map_trim_eq_iff params).1 hparams']
      · rintro rfl
        refine ⟨_, rfl, ?_⟩
        simp [countedOperands, (hresult.trim_eq_iff _).2 rfl, (hparams.map_trim_eq_iff _).2 rfl]

theorem ParamForms.map_trim_eq_iff : ∀ {typed : List Sexpr} {types : List Ty} {variadic : Bool},
    ParamForms typed types variadic → ∀ forms, forms.map trim = typed ↔ forms = typed
  | _, _, _, .none, _ => List.map_eq_nil_iff
  | _, _, _, .dots, forms => by
      rw [List.map_eq_singleton_iff]
      simp [trim_eq_symbol_iff]
  | _, _, _, .param hparam _ hrest, forms => by
      rw [List.map_eq_cons_iff]
      constructor
      · rintro ⟨form, rest, rfl, hform, hforms⟩
        rw [(hparam.trim_eq_iff form).1 hform, (hrest.map_trim_eq_iff rest).1 hforms]
      · rintro rfl
        exact ⟨_, _, rfl, (hparam.trim_eq_iff _).2 rfl, (hrest.map_trim_eq_iff _).2 rfl⟩

end

theorem nameOfSexpr_eq_ok_iff_trim {form : Sexpr} {name : String} :
    nameOfSexpr form = .ok name ↔ NameForm (trim form) name := by
  rw [nameOfSexpr_eq_ok_iff]
  constructor
  · intro h
    rwa [h.trim_eq_iff.2 rfl]
  · intro h
    rwa [h.trim_eq_iff.1 rfl]

theorem typeOfSexpr_eq_ok_iff_trim {form : Sexpr} {type : Ty} :
    typeOfSexpr form = .ok type ↔ TypeForm (trim form) type := by
  rw [typeOfSexpr_eq_ok_iff]
  constructor
  · intro h
    rwa [(h.trim_eq_iff form).2 rfl]
  · intro h
    rwa [(h.trim_eq_iff form).1 rfl]

theorem signatureOfSexpr_eq_ok_iff_trim {form : Sexpr} {type : Ty} :
    signatureOfSexpr form = .ok type ↔ SignatureForm (trim form) type := by
  rw [signatureOfSexpr_eq_ok_iff]
  constructor
  · intro h
    rwa [(h.trim_eq_iff form).2 rfl]
  · intro h
    rwa [(h.trim_eq_iff form).1 rfl]

/-! ## Calls -/

section Call

variable {form : Sexpr} {known : List String}

theorem Argument.ofSexpr_eq_ok_iff_trim {argument : Argument} :
    Argument.ofSexpr known form = .ok argument ↔
      ArgumentForm (trim form) argument ∧ ∀ name, argument = .ref name → name ∈ known := by
  constructor
  · intro h
    refine ⟨?_, fun name heq => Argument.mem_known_of_ofSexpr (heq ▸ h)⟩
    rcases Argument.ofSexpr_eq_ok_iff.1 h with ⟨operand, surplus, name, rfl, hname, rfl⟩ |
      ⟨operand, type, rfl, htype, rfl⟩ |
      ⟨operand, label, surplus, type, name, rfl, htype, hname, rfl⟩
    · exact .ref (nameOfSexpr_eq_ok_iff_trim.1 (knownNameOfSexpr_eq_ok_iff.1 hname).1)
    · exact .operand (typeOfSexpr_eq_ok_iff_trim.1 htype)
    · exact .namedOperand (typeOfSexpr_eq_ok_iff_trim.1 htype) (nameOfSexpr_eq_ok_iff_trim.1 hname)
  · rintro ⟨h, hknown⟩
    rw [Argument.ofSexpr_eq_ok_iff]
    generalize htrim : trim form = trimmed at h
    cases h with
    | ref hname =>
      obtain ⟨operands, rfl, hoperands⟩ := trim_eq_tagged_iff.1 htrim
      cases operands with
      | nil => simp [countedOperands] at hoperands
      | cons operand surplus =>
        obtain rfl : trim operand = _ := by simpa [countedOperands] using hoperands
        refine .inl ⟨operand, surplus, _, rfl, knownNameOfSexpr_eq_ok_iff.2 ⟨?_, hknown _ rfl⟩, rfl⟩
        exact nameOfSexpr_eq_ok_iff_trim.2 hname
    | operand htype =>
      obtain ⟨operands, rfl, hoperands⟩ := trim_eq_tagged_iff.1 htrim
      cases operands with
      | nil => simp [countedOperands] at hoperands
      | cons operand surplus =>
        obtain ⟨rfl, rfl⟩ : trim operand = _ ∧ surplus = [] := by
          simpa [countedOperands] using hoperands
        exact .inr (.inl ⟨operand, _, rfl, typeOfSexpr_eq_ok_iff_trim.2 htype, rfl⟩)
    | namedOperand htype hname =>
      obtain ⟨operands, rfl, hoperands⟩ := trim_eq_tagged_iff.1 htrim
      rcases operands with - | ⟨operand, - | ⟨label, surplus⟩⟩
      · simp [countedOperands] at hoperands
      · simp [countedOperands] at hoperands
      · obtain ⟨rfl, rfl⟩ : trim operand = _ ∧ trim label = _ := by
          simpa [countedOperands] using hoperands
        exact .inr (.inr ⟨operand, label, surplus, _, _, rfl, typeOfSexpr_eq_ok_iff_trim.2 htype,
          nameOfSexpr_eq_ok_iff_trim.2 hname, rfl⟩)

theorem Target.ofSexpr_eq_ok_iff_trim {target : Target} :
    Target.ofSexpr known form = .ok target ↔
      TargetForm (trim form) target ∧ ∀ name, target = .named name → name ∈ known := by
  constructor
  · intro h
    refine ⟨?_, (Target.of_ofSexpr h).1⟩
    rcases Target.ofSexpr_eq_ok_iff.1 h with ⟨name, hname, rfl⟩ |
      ⟨operand, surplus, type, rfl, htype, rfl⟩
    · exact .named (nameOfSexpr_eq_ok_iff_trim.1 (knownNameOfSexpr_eq_ok_iff.1 hname).1)
    · exact .indirect (signatureOfSexpr_eq_ok_iff_trim.1 htype)
  · rintro ⟨h, hknown⟩
    rw [Target.ofSexpr_eq_ok_iff]
    generalize htrim : trim form = trimmed at h
    cases h with
    | named hname =>
      subst htrim
      refine .inl ⟨_, knownNameOfSexpr_eq_ok_iff.2 ⟨?_, hknown _ rfl⟩, rfl⟩
      exact nameOfSexpr_eq_ok_iff_trim.2 hname
    | indirect htype =>
      obtain ⟨operands, rfl, hoperands⟩ := trim_eq_tagged_iff.1 htrim
      cases operands with
      | nil => simp [countedOperands] at hoperands
      | cons operand surplus =>
        obtain rfl : trim operand = _ := by simpa [countedOperands] using hoperands
        exact .inr ⟨operand, surplus, _, rfl, signatureOfSexpr_eq_ok_iff_trim.2 htype, rfl⟩

/-- Forms are read one by one, each as its trimmed tree says. -/
theorem forall₂_iff_trim {α : Type} {Reads Form : Sexpr → α → Prop} {Fits : α → Prop}
    (hreads : ∀ form part, Reads form part ↔ Form (trim form) part ∧ Fits part)
    {forms : List Sexpr} {parts : List α} :
    List.Forall₂ Reads forms parts ↔
      List.Forall₂ Form (forms.map trim) parts ∧ ∀ part ∈ parts, Fits part := by
  induction parts generalizing forms with
  | nil => simp
  | cons part parts ih =>
    cases forms with
    | nil => simp
    | cons form forms =>
      rw [List.map_cons, List.forall₂_cons, List.forall₂_cons, hreads, ih, List.forall_mem_cons]
      exact and_and_and_comm

/-- A tag that reads all its operands. -/
theorem countedOperands_word (kind : CallMode) (operands : List Sexpr) :
    countedOperands kind.word operands = operands := by
  cases kind <;> rfl

theorem Call.ofSexpr_eq_ok_iff_trim {call : Call} :
    Call.ofSexpr known form = .ok call ↔ CallForm (trim form) call ∧ call.Knows known := by
  rw [Call.ofSexpr_eq_ok_iff]
  constructor
  · rintro ⟨tag, target, arguments, rfl, hkind, htarget, harguments⟩
    obtain rfl := callMode?_eq_some_iff.1 hkind
    obtain ⟨htarget, hnamed⟩ := Target.ofSexpr_eq_ok_iff_trim.1 htarget
    obtain ⟨harguments, hrefs⟩ :=
      (forall₂_iff_trim fun _ _ => Argument.ofSexpr_eq_ok_iff_trim).1 harguments
    rw [trim_tagged, countedOperands_word]
    exact ⟨.intro call.kind htarget harguments, hnamed, fun name hname => hrefs _ hname name rfl⟩
  · rintro ⟨h, hknows⟩
    generalize htrim : trim form = trimmed at h
    cases h with
    | intro kind htarget harguments =>
      obtain ⟨operands, rfl, hoperands⟩ := trim_eq_tagged_iff.1 htrim
      rw [countedOperands_word] at hoperands
      obtain ⟨target, arguments, rfl, rfl, rfl⟩ := List.map_eq_cons_iff.1 hoperands
      refine ⟨kind.word, target, arguments, rfl, callMode?_eq_some_iff.2 rfl,
        Target.ofSexpr_eq_ok_iff_trim.2 ⟨htarget, hknows.target⟩, ?_⟩
      refine (forall₂_iff_trim fun _ _ => Argument.ofSexpr_eq_ok_iff_trim).2
        ⟨harguments, fun argument hargument name heq => hknows.arguments name ?_⟩
      rwa [← heq]

end Call

/-! ## Functions -/

section Function

variable {form : Sexpr} {known : List String}

theorem Block.ofSexpr_eq_ok_iff_trim {block : Block} :
    Block.ofSexpr known form = .ok block ↔
      BlockForm (trim form) block ∧ ∀ call ∈ block.calls, call.Knows known := by
  rw [Block.ofSexpr_eq_ok_iff]
  constructor
  · rintro ⟨name, calls, rfl, hname, hcalls⟩
    obtain ⟨hcalls, hknows⟩ :=
      (forall₂_iff_trim fun _ _ => Call.ofSexpr_eq_ok_iff_trim).1 hcalls
    rw [trim_tagged]
    exact ⟨.intro (nameOfSexpr_eq_ok_iff_trim.1 hname) hcalls, hknows⟩
  · rintro ⟨h, hknows⟩
    generalize htrim : trim form = trimmed at h
    cases h with
    | intro hname hcalls =>
      obtain ⟨operands, rfl, hoperands⟩ := trim_eq_tagged_iff.1 htrim
      obtain ⟨name, calls, rfl, rfl, rfl⟩ := List.map_eq_cons_iff.1 hoperands
      exact ⟨name, calls, rfl, nameOfSexpr_eq_ok_iff_trim.2 hname,
        (forall₂_iff_trim fun _ _ => Call.ofSexpr_eq_ok_iff_trim).2 ⟨hcalls, hknows⟩⟩

/-- The two passes over a function. -/
def Function.ReadFrom (known : List String) (form : Sexpr) (function : Function) : Prop :=
  ∃ header, Header.ofSexpr form = .ok header ∧ header.complete known = .ok function

theorem Function.readFrom_iff_trim {function : Function} :
    function.ReadFrom known form ↔ FunctionForm (trim form) function ∧
      ∀ block ∈ function.blocks, ∀ call ∈ block.calls, call.Knows known := by
  constructor
  · rintro ⟨header, hheader, hcomplete⟩
    obtain ⟨name, type, hname, htype, hform⟩ := Header.ofSexpr_eq_ok_iff.1 hheader
    obtain ⟨hnameEq, htypeEq, hbody⟩ := Header.complete_eq_ok_iff.1 hcomplete
    obtain ⟨functionName, functionType, body⟩ := function
    obtain ⟨headerName, headerType, forms⟩ := header
    obtain ⟨rfl, rfl⟩ : functionName = headerName ∧ functionType = headerType := ⟨hnameEq, htypeEq⟩
    have hname := nameOfSexpr_eq_ok_iff_trim.1 hname
    have htype := signatureOfSexpr_eq_ok_iff_trim.1 htype
    rcases hform with ⟨rfl, rfl⟩ | ⟨blocks, rfl, rfl⟩
    · cases hbody
      rw [trim_tagged]
      exact ⟨.declare hname htype, by simp [Function.blocks]⟩
    · cases hbody with
      | some hblocks =>
        obtain ⟨hblocks, hknows⟩ :=
          (forall₂_iff_trim fun _ _ => Block.ofSexpr_eq_ok_iff_trim).1 hblocks
        rw [trim_tagged]
        exact ⟨.define hname htype hblocks, hknows⟩
  · rintro ⟨h, hknows⟩
    generalize htrim : trim form = trimmed at h
    cases h with
    | declare hname htype =>
      obtain ⟨operands, rfl, hoperands⟩ := trim_eq_tagged_iff.1 htrim
      obtain ⟨name, rest, rfl, rfl, hrest⟩ := List.map_eq_cons_iff.1 hoperands
      obtain ⟨type, rfl, rfl⟩ := List.map_eq_singleton_iff.1 hrest
      refine ⟨⟨_, _, none⟩, Header.ofSexpr_eq_ok_iff.2 ⟨name, type,
        nameOfSexpr_eq_ok_iff_trim.2 hname, signatureOfSexpr_eq_ok_iff_trim.2 htype,
        .inl ⟨rfl, rfl⟩⟩, Header.complete_eq_ok_iff.2 ⟨rfl, rfl, .none⟩⟩
    | define hname htype hblocks =>
      obtain ⟨operands, rfl, hoperands⟩ := trim_eq_tagged_iff.1 htrim
      obtain ⟨name, rest, rfl, rfl, hrest⟩ := List.map_eq_cons_iff.1 hoperands
      obtain ⟨type, blocks, rfl, rfl, rfl⟩ := List.map_eq_cons_iff.1 hrest
      refine ⟨⟨_, _, some blocks⟩, Header.ofSexpr_eq_ok_iff.2 ⟨name, type,
        nameOfSexpr_eq_ok_iff_trim.2 hname, signatureOfSexpr_eq_ok_iff_trim.2 htype,
        .inr ⟨blocks, rfl, rfl⟩⟩, Header.complete_eq_ok_iff.2 ⟨rfl, rfl, .some ?_⟩⟩
      exact (forall₂_iff_trim fun _ _ => Block.ofSexpr_eq_ok_iff_trim).2 ⟨hblocks, hknows⟩

end Function

/-! ## Programs -/

/-- All headers are read before the first body. -/
theorem forall₂_readFrom_iff {known : List String} {items : List Sexpr}
    {functions : List Function} :
    List.Forall₂ (fun item function => Function.ReadFrom known item function) items functions ↔
      ∃ headers,
        List.Forall₂ (fun item header => Header.ofSexpr item = .ok header) items headers ∧
        List.Forall₂ (fun header function => header.complete known = .ok function) headers
          functions := by
  constructor
  · intro h
    induction h with
    | nil => exact ⟨[], .nil, .nil⟩
    | cons hfunction _ ih =>
      obtain ⟨header, hheader, hcomplete⟩ := hfunction
      obtain ⟨headers, hheaders, hcompletes⟩ := ih
      exact ⟨header :: headers, .cons hheader hheaders, .cons hcomplete hcompletes⟩
  · rintro ⟨headers, hheaders, hcompletes⟩
    induction hheaders generalizing functions with
    | nil =>
      cases hcompletes
      exact .nil
    | cons hheader _ ih =>
      cases hcompletes with
      | cons hcomplete hcompletes => exact .cons ⟨_, hheader, hcomplete⟩ (ih hcompletes)

/-- A name before the items is there after trimming exactly when it was there
before. -/
theorem splitProgramName_map_trim {operands items : List Sexpr} {name : String} :
    splitProgramName (operands.map trim) = .ok (name, items) ↔
      ∃ given, splitProgramName operands = .ok (name, given) ∧ given.map trim = items := by
  cases operands with
  | nil => simp [splitProgramName, eq_comm]
  | cons first rest =>
    cases first <;>
      simp [splitProgramName, trim, nameOfSexpr, mistakeAt, bind, Except.bind, pure, Except.pure]

theorem Program.ofSexpr_eq_ok_iff_trim {form : Sexpr} {source : Program} :
    Program.ofSexpr form = .ok source ↔ ProgramForm (trim form) source ∧ source.Closed := by
  constructor
  · intro h
    refine ⟨ProgramForm.iff_items.2 ?_, (Program.closed_of_ofSexpr h).1⟩
    obtain ⟨operands, items, headers, rfl, hsplit, hheaders, -, hcompletes⟩ :=
      Program.ofSexpr_eq_ok_iff.1 h
    have hfunctions := (forall₂_iff_trim fun _ _ => Function.readFrom_iff_trim).1
      (forall₂_readFrom_iff.2 ⟨headers, hheaders, hcompletes⟩)
    exact ⟨operands.map trim, items.map trim, trim_tagged _ _,
      splitProgramName_map_trim.2 ⟨items, hsplit, rfl⟩, hfunctions.1⟩
  · rintro ⟨hform, hclosed⟩
    obtain ⟨counted, trimmed, htrim, hsplit, hfunctions⟩ := ProgramForm.iff_items.1 hform
    obtain ⟨operands, rfl, rfl⟩ := trim_eq_tagged_iff.1 htrim
    obtain ⟨items, hgiven, rfl⟩ := splitProgramName_map_trim.1 hsplit
    have hread := (forall₂_iff_trim fun _ _ => Function.readFrom_iff_trim).2
      ⟨hfunctions, hclosed.knows⟩
    obtain ⟨headers, hheaders, hcompletes⟩ := forall₂_readFrom_iff.1 hread
    have hnames : headers.map (·.name) = source.names :=
      (Header.map_name_complete hcompletes).symm
    refine Program.ofSexpr_eq_ok_iff.2 ⟨operands, items, headers, rfl, hgiven, hheaders, ?_, ?_⟩
    · rw [hnames]
      exact hclosed.nodup
    · rw [hnames]
      exact hcompletes

/-! ## Forms without surplus -/

theorem map_trim_eq {α : Type} {Form : Sexpr → α → Prop} {forms : List Sexpr} {parts : List α}
    (h : List.Forall₂ Form forms parts)
    (htrim : ∀ form part, Form form part → trim form = form) : forms.map trim = forms := by
  induction h with
  | nil => rfl
  | cons hform _ ih => rw [List.map_cons, htrim _ _ hform, ih]

theorem ArgumentForm.trim_eq (form : Sexpr) (argument : Argument)
    (h : ArgumentForm form argument) : trim form = form := by
  cases h with
  | ref hname => simp [countedOperands, hname.trim_eq_iff.2 rfl]
  | operand htype => simp [countedOperands, (htype.trim_eq_iff _).2 rfl]
  | namedOperand htype hname =>
    simp [countedOperands, (htype.trim_eq_iff _).2 rfl, hname.trim_eq_iff.2 rfl]

theorem TargetForm.trim_eq (form : Sexpr) (target : Target) (h : TargetForm form target) :
    trim form = form := by
  cases h with
  | named hname => exact hname.trim_eq_iff.2 rfl
  | indirect htype => simp [countedOperands, (htype.trim_eq_iff _).2 rfl]

theorem CallForm.trim_eq (form : Sexpr) (call : Call) (h : CallForm form call) :
    trim form = form := by
  cases h with
  | intro kind htarget harguments =>
    rw [trim_tagged, countedOperands_word, List.map_cons, htarget.trim_eq,
      map_trim_eq harguments ArgumentForm.trim_eq]

theorem BlockForm.trim_eq (form : Sexpr) (block : Block) (h : BlockForm form block) :
    trim form = form := by
  cases h with
  | intro hname hcalls =>
    simp [countedOperands, hname.trim_eq_iff.2 rfl, map_trim_eq hcalls CallForm.trim_eq]

theorem FunctionForm.trim_eq (form : Sexpr) (function : Function)
    (h : FunctionForm form function) : trim form = form := by
  cases h with
  | declare hname htype =>
    simp [countedOperands, hname.trim_eq_iff.2 rfl, (htype.trim_eq_iff _).2 rfl]
  | define hname htype hblocks =>
    simp [countedOperands, hname.trim_eq_iff.2 rfl, (htype.trim_eq_iff _).2 rfl,
      map_trim_eq hblocks BlockForm.trim_eq]

/-- A program of the grammar has no surplus operands. -/
theorem ProgramForm.trim_eq {form : Sexpr} {source : Program} (h : ProgramForm form source) :
    trim form = form := by
  cases h with
  | unnamed hfunctions =>
    simp [countedOperands, map_trim_eq hfunctions FunctionForm.trim_eq]
  | named hname hfunctions =>
    simp [countedOperands, hname.trim_eq_iff.2 rfl, map_trim_eq hfunctions FunctionForm.trim_eq]

/-- A tree of the grammar that denotes a closed source is read as that
source. -/
theorem ProgramForm.read {form : Sexpr} {source : Program} (h : ProgramForm form source)
    (hclosed : source.Closed) : Program.ofSexpr form = .ok source := by
  refine Program.ofSexpr_eq_ok_iff_trim.2 ⟨?_, hclosed⟩
  rwa [h.trim_eq]

/-! ## What reading ignores -/

/-- A tree is read as a source exactly when the trimmed tree denotes it by the
grammar and the source is closed.  So the operands after the first of a `ref` or
an `indirect` and after the second of an `operand` are ignored, whatever they
are; and since nothing else is, a tree that is read is one of the grammar exactly
when it has no such operands. -/
theorem Program.ofSexpr_ignores_surplus (form : Sexpr) (source : Program) :
    (Program.ofSexpr form = .ok source ↔ ProgramForm (trim form) source ∧ source.Closed) ∧
      (Program.ofSexpr form = .ok source →
        ((∃ other, ProgramForm form other) ↔ trim form = form)) := by
  refine ⟨Program.ofSexpr_eq_ok_iff_trim, fun h => ⟨?_, fun htrim => ⟨source, ?_⟩⟩⟩
  · rintro ⟨other, hother⟩
    exact hother.trim_eq
  · rw [← htrim]
    exact (Program.ofSexpr_eq_ok_iff_trim.1 h).1

/-- A program in which all three kinds of forms have operands too many. -/
def surplusForm : Sexpr :=
  .list [.symbol "program",
    .list [.symbol "define", .symbol "main", .list [.symbol "fn", .symbol "void"],
      .list [.symbol "block", .symbol "entry",
        .list [.symbol "call",
          .list [.symbol "indirect", .list [.symbol "fn", .symbol "void"], .int 1],
          .list [.symbol "ref", .symbol "main", .symbol "other"],
          .list [.symbol "operand", .symbol "i8", .symbol "x", .list []]]]]]

/-- What is read of it. -/
def surplusSource : Program :=
  ⟨"<module>", [⟨"main", .signature (.scalar "void") [] false, some [⟨"entry", [
    ⟨.call, .indirect (.signature (.scalar "void") [] false),
      [.ref "main", .operand (.scalar "i8") (some "x")]⟩]⟩]⟩]⟩

theorem trim_surplusForm_ne : trim surplusForm ≠ surplusForm := by
  simp [surplusForm, countedOperands, trim_tagged]

theorem Program.ofSexpr_surplusForm : Program.ofSexpr surplusForm = .ok surplusSource := by
  cbv

theorem Program.ofSexpr_ignores_surplus_main :
    Program.ofSexpr surplusForm = .ok surplusSource ∧
      ProgramForm (trim surplusForm) surplusSource ∧ surplusSource.Closed ∧
      trim surplusForm ≠ surplusForm ∧ ¬∃ other, ProgramForm surplusForm other := by
  have hread := Program.ofSexpr_surplusForm
  obtain ⟨hiff, hsurplus⟩ := Program.ofSexpr_ignores_surplus surplusForm surplusSource
  exact ⟨hread, (hiff.1 hread).1, (hiff.1 hread).2, trim_surplusForm_ne,
    fun hother => trim_surplusForm_ne ((hsurplus hread).1 hother)⟩

/-- Not every tree that is read is one of the grammar. -/
theorem Program.not_forall_programForm_of_ofSexpr :
    ¬∀ form source, Program.ofSexpr form = .ok source → ∃ other, ProgramForm form other := by
  intro h
  obtain ⟨other, hother⟩ := h surplusForm surplusSource Program.ofSexpr_surplusForm
  exact trim_surplusForm_ne hother.trim_eq

end CallReach.Source
