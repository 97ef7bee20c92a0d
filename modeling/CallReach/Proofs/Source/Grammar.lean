import CallReach.Proofs.Source.Install
import CallReach.Proofs.Source.Reading
import CallReach.Proofs.Ty.Spelling

/-!
# The grammar of programs

The forms of a program as relations between a tree and what it denotes, one
relation for each kind of form and one constructor for each production:

```text
(program <name>?
  (declare <fname> <sig>)
  (define  <fname> <sig>
    (block <bname>
      (call   <callee> <arg> ...)
      (invoke <callee> <arg> ...))))

<callee> := <fname> | (indirect <sig>)
<arg>    := (ref <fname>) | (operand <type> <vname>?)
<type>   := <symbol> | (ptr <type>) | <sig>
<sig>    := (fn <ret-type> <param-type> ... [...])
```

A name is a symbol or a text literal.  The relations know nothing of functions
that a program has; that calls name functions of their own program is
`Program.Closed`, and it is asked of the denoted source.

Names, types and signatures are read exactly by the grammar:
`nameOfSexpr_eq_ok_iff`, `typeOfSexpr_eq_ok_iff`, `signatureOfSexpr_eq_ok_iff`.
-/

namespace CallReach.Source

/-! ## Names and types -/

/-- A name. -/
inductive NameForm : Sexpr → String → Prop where
  | symbol (name : String) : NameForm (.symbol name) name
  | text (name : String) : NameForm (.text name) name

mutual
/-- A type. -/
inductive TypeForm : Sexpr → Ty → Prop where
  | spelled {form : Sexpr} {name : String} {type : Ty} (hname : NameForm form name)
      (hspelled : Ty.Spelled name type) : TypeForm form type
  | pointer {form : Sexpr} {type : Ty} (h : TypeForm form type) :
      TypeForm (.list [.symbol "ptr", form]) (.pointer type)
  | signature {form : Sexpr} {type : Ty} (h : SignatureForm form type) : TypeForm form type

/-- A signature. -/
inductive SignatureForm : Sexpr → Ty → Prop where
  | fn {result : Sexpr} {params : List Sexpr} {type : Ty} {types : List Ty} {variadic : Bool}
      (hresult : TypeForm result type) (hparams : ParamForms params types variadic) :
      SignatureForm (.list (.symbol "fn" :: result :: params)) (.signature type types variadic)

/-- The parameters of a signature.  The symbol of three dots at the end says that
it is variadic; anywhere else the symbol is a type. -/
inductive ParamForms : List Sexpr → List Ty → Bool → Prop where
  | none : ParamForms [] [] false
  | dots : ParamForms [.symbol "..."] [] true
  | param {form : Sexpr} {rest : List Sexpr} {type : Ty} {types : List Ty} {variadic : Bool}
      (hparam : TypeForm form type) (hdots : form = .symbol "..." → rest ≠ [])
      (hrest : ParamForms rest types variadic) :
      ParamForms (form :: rest) (type :: types) variadic
end

theorem nameOfSexpr_eq_ok_iff {form : Sexpr} {name : String} :
    nameOfSexpr form = .ok name ↔ NameForm form name := by
  constructor
  · intro h
    cases form with
    | symbol found =>
      cases h
      exact .symbol name
    | text value =>
      cases h
      exact .text name
    | _ => cases h
  · intro h
    cases h <;> rfl

mutual

theorem TypeForm.read : ∀ {form : Sexpr} {type : Ty}, TypeForm form type →
    typeOfSexpr form = .ok type
  | _, _, .spelled hname hspelled => by
      have hread := Ty.ofSpelling_eq_ok_iff.2 hspelled
      cases hname <;> simp [typeOfSexpr, nameOfSexpr, hread, bind, Except.bind, pure, Except.pure]
  | _, _, .pointer h => by
      simp [typeOfSexpr, h.read, bind, Except.bind, pure, Except.pure]
  | _, _, .signature h => h.read

theorem SignatureForm.read : ∀ {form : Sexpr} {type : Ty}, SignatureForm form type →
    typeOfSexpr form = .ok type
  | _, _, .fn hresult hparams => by
      simp [typeOfSexpr, hresult.read, hparams.read, bind, Except.bind, pure, Except.pure]

theorem ParamForms.read : ∀ {forms : List Sexpr} {types : List Ty} {variadic : Bool},
    ParamForms forms types variadic → paramsOfSexprs forms = .ok (types, variadic)
  | _, _, _, .none => rfl
  | _, _, _, .dots => rfl
  | _, _, _, .param hparam hdots hrest => by
      simp [paramsOfSexprs, hparam.read, hrest.read, bind, Except.bind, pure, Except.pure]

end

/-- A tree that is read as a type is a type of the grammar. -/
theorem TypeForm.of_read {form : Sexpr} {type : Ty} (h : typeOfSexpr form = .ok type) :
    TypeForm form type := by
  refine typeOfSexpr.induct
    (fun form => ∀ type, typeOfSexpr form = .ok type → TypeForm form type)
    (fun forms => ∀ types variadic, paramsOfSexprs forms = .ok (types, variadic) →
      ParamForms forms types variadic)
    ?empty ?noResult ?signature ?pointer ?pointerOperands ?unknown ?headless ?spelled
    ?noParams ?dots ?param form type h
  case empty =>
    intro type h
    cases h
  case noResult =>
    intro type h
    cases h
  case signature =>
    intro result params hresult hparams type h
    simp only [typeOfSexpr, if_true, bind_eq_ok_iff] at h
    obtain ⟨resultType, hread, ⟨types, variadic⟩, hreads, h⟩ := h
    cases h
    exact .signature (.fn (hresult _ hread) (hparams _ _ hreads))
  case pointer =>
    intro pointee _ hpointee type h
    simp only [typeOfSexpr, String.reduceEq, if_false, if_true, bind_eq_ok_iff] at h
    obtain ⟨pointeeType, hread, h⟩ := h
    cases h
    exact .pointer (hpointee _ hread)
  case pointerOperands =>
    intro operands hoperands _ type h
    unfold typeOfSexpr at h
    simp only [String.reduceEq, if_false, if_true] at h
    cases h
  case unknown =>
    intro tag operands hfn hptr type h
    unfold typeOfSexpr at h
    simp [hfn, hptr, mistakeAt] at h
  case headless =>
    intro head operands hhead type h
    rw [typeOfSexpr] at h
    · cases h
    · exact hhead
  case spelled =>
    intro form hempty htagged hlist type h
    rw [typeOfSexpr, bind_eq_ok_iff] at h
    · obtain ⟨name, hname, h⟩ := h
      split at h
      · rename_i found hfound
        cases h
        exact .spelled (nameOfSexpr_eq_ok_iff.1 hname) (Ty.ofSpelling_eq_ok_iff.1 hfound)
      · cases h
    · exact hempty
    · exact htagged
    · exact hlist
  case noParams =>
    intro types variadic h
    cases h
    exact .none
  case dots =>
    intro types variadic h
    cases h
    exact .dots
  case param =>
    intro form rest hdots hform hrest types variadic h
    rw [paramsOfSexprs, bind_eq_ok_iff] at h
    · obtain ⟨type, hread, h⟩ := h
      obtain ⟨⟨others, more⟩, hreads, h⟩ := bind_eq_ok_iff.1 h
      cases h
      exact .param (hform _ hread) hdots (hrest _ _ hreads)
    · exact hdots

theorem typeOfSexpr_eq_ok_iff {form : Sexpr} {type : Ty} :
    typeOfSexpr form = .ok type ↔ TypeForm form type :=
  ⟨TypeForm.of_read, TypeForm.read⟩

theorem signatureOfSexpr_eq_ok_iff {form : Sexpr} {type : Ty} :
    signatureOfSexpr form = .ok type ↔ SignatureForm form type := by
  unfold signatureOfSexpr
  rw [bind_eq_ok_iff]
  constructor
  · rintro ⟨operands, hoperands, htype⟩
    obtain ⟨rfl, -⟩ := taggedOperands_eq_ok_iff.1 hoperands
    have htyped := TypeForm.of_read htype
    -- The list is tagged `fn`, so it is neither spelled nor a pointer.
    generalize hform : Sexpr.list (.symbol "fn" :: operands) = form at htyped
    cases htyped with
    | spelled hname _ => cases hname <;> cases hform
    | pointer _ => simp at hform
    | signature hsignature => exact hsignature
  · intro h
    cases h with
    | @fn result params _ _ _ hresult hparams =>
      exact ⟨result :: params, taggedOperands_eq_ok_iff.2 ⟨rfl, by simp⟩,
        (SignatureForm.fn hresult hparams).read⟩

/-! ## Calls -/

/-- An argument of a call. -/
inductive ArgumentForm : Sexpr → Argument → Prop where
  | ref {form : Sexpr} {name : String} (hname : NameForm form name) :
      ArgumentForm (.list [.symbol "ref", form]) (.ref name)
  | operand {form : Sexpr} {type : Ty} (htype : TypeForm form type) :
      ArgumentForm (.list [.symbol "operand", form]) (.operand type none)
  | namedOperand {form nameForm : Sexpr} {type : Ty} {name : String} (htype : TypeForm form type)
      (hname : NameForm nameForm name) :
      ArgumentForm (.list [.symbol "operand", form, nameForm]) (.operand type (some name))

/-- The target of a call. -/
inductive TargetForm : Sexpr → Target → Prop where
  | named {form : Sexpr} {name : String} (hname : NameForm form name) :
      TargetForm form (.named name)
  | indirect {form : Sexpr} {type : Ty} (htype : SignatureForm form type) :
      TargetForm (.list [.symbol "indirect", form]) (.indirect type)

/-- A call, under the word for its kind. -/
inductive CallForm : Sexpr → Call → Prop where
  | intro {targetForm : Sexpr} {target : Target} {forms : List Sexpr} {arguments : List Argument}
      (kind : CallMode) (htarget : TargetForm targetForm target)
      (harguments : List.Forall₂ ArgumentForm forms arguments) :
      CallForm (.list (.symbol kind.word :: targetForm :: forms)) ⟨kind, target, arguments⟩

/-! ## Functions -/

/-- A block of calls. -/
inductive BlockForm : Sexpr → Block → Prop where
  | intro {nameForm : Sexpr} {name : String} {forms : List Sexpr} {calls : List Call}
      (hname : NameForm nameForm name) (hcalls : List.Forall₂ CallForm forms calls) :
      BlockForm (.list (.symbol "block" :: nameForm :: forms)) ⟨name, calls⟩

/-- A function. -/
inductive FunctionForm : Sexpr → Function → Prop where
  | declare {nameForm typeForm : Sexpr} {name : String} {type : Ty}
      (hname : NameForm nameForm name) (htype : SignatureForm typeForm type) :
      FunctionForm (.list [.symbol "declare", nameForm, typeForm]) ⟨name, type, none⟩
  | define {nameForm typeForm : Sexpr} {name : String} {type : Ty} {forms : List Sexpr}
      {blocks : List Block} (hname : NameForm nameForm name) (htype : SignatureForm typeForm type)
      (hblocks : List.Forall₂ BlockForm forms blocks) :
      FunctionForm (.list (.symbol "define" :: nameForm :: typeForm :: forms))
        ⟨name, type, some blocks⟩

/-- A program, with a name or without. -/
inductive ProgramForm : Sexpr → Program → Prop where
  | unnamed {items : List Sexpr} {functions : List Function}
      (hfunctions : List.Forall₂ FunctionForm items functions) :
      ProgramForm (.list (.symbol "program" :: items)) ⟨defaultName, functions⟩
  | named {nameForm : Sexpr} {name : String} {items : List Sexpr} {functions : List Function}
      (hname : NameForm nameForm name)
      (hfunctions : List.Forall₂ FunctionForm items functions) :
      ProgramForm (.list (.symbol "program" :: nameForm :: items)) ⟨name, functions⟩

/-- The forms of a program, by what follows the tag.  A name is told from the
first item, which is a list. -/
theorem ProgramForm.iff_items {form : Sexpr} {source : Program} :
    ProgramForm form source ↔
      ∃ operands items, form = .list (.symbol "program" :: operands) ∧
        splitProgramName operands = .ok (source.name, items) ∧
        List.Forall₂ FunctionForm items source.functions := by
  constructor
  · intro h
    cases h with
    | @unnamed items functions hfunctions =>
      refine ⟨items, items, rfl, ?_, hfunctions⟩
      cases hfunctions with
      | nil => rfl
      | cons hfirst _ => cases hfirst <;> rfl
    | @named nameForm name items functions hname hfunctions =>
      refine ⟨nameForm :: items, items, rfl, ?_, hfunctions⟩
      cases hname <;> rfl
  · obtain ⟨name, functions⟩ := source
    rintro ⟨operands, items, rfl, hsplit, hfunctions⟩
    unfold splitProgramName at hsplit
    split at hsplit
    · cases hsplit
      exact .unnamed hfunctions
    · cases hsplit
      exact .unnamed hfunctions
    · obtain ⟨found, hfound, hsplit⟩ := bind_eq_ok_iff.1 hsplit
      cases hsplit
      exact .named (nameOfSexpr_eq_ok_iff.1 hfound) hfunctions

end CallReach.Source
