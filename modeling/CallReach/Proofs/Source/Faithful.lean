import CallReach.Proofs.Source.Surplus

/-!
# Reading shows the program that was written

`ProgramForm.read_faithful`: a tree of the grammar that denotes a closed source
is read as that source, and the model shows it.
-/

namespace CallReach.Source

/-- A tree of the grammar whose function names are distinct and whose calls name
functions of the program, before or after the call, is read as the source that it
denotes, and installing the source shows all of it. -/
theorem ProgramForm.read_faithful {form : Sexpr} {source : Program}
    (hform : ProgramForm form source) (hnames : source.names.Nodup)
    (hknown : ∀ call ∈ source.calls, call.Knows source.names) (m : Model) :
    Program.ofSexpr form = .ok source ∧
      source.Shown (source.install m).1 (source.install m).2 := by
  have hclosed : source.Closed := ⟨hnames, hknown⟩
  exact ⟨hform.read hclosed, (Program.shown_install hclosed m).1⟩

/-- A program in which `main` calls a function that is declared after it.  One
block has an empty name, one signature has three dots twice, and the types are
spelled with stars and a qualifier. -/
def lateForm : Sexpr :=
  .list [.symbol "program",
    .list [.symbol "define", .text "main",
      .list [.symbol "fn", .symbol "void", .symbol "...", .symbol "..."],
      .list [.symbol "block", .text "",
        .list [.symbol "invoke",
          .list [.symbol "indirect", .list [.symbol "fn", .list [.symbol "ptr", .symbol "i8*"]]],
          .list [.symbol "ref", .symbol "late"]],
        .list [.symbol "call", .symbol "late",
          .list [.symbol "operand", .text "const i8 *", .symbol "x"]]]],
    .list [.symbol "declare", .symbol "late", .list [.symbol "fn", .symbol "i32"]]]

/-- What the form denotes. -/
def lateSource : Program :=
  ⟨"<module>", [
    ⟨"main", .signature (.scalar "void") [.scalar "..."] true, some [⟨"", [
      ⟨.invoke, .indirect (.signature (.pointer (.pointer (.scalar "i8"))) [] false),
        [.ref "late"]⟩,
      ⟨.call, .named "late", [.operand (.pointer (.scalar "i8")) (some "x")]⟩]⟩]⟩,
    ⟨"late", .signature (.scalar "i32") [] false, none⟩]⟩

theorem lateForm_denotes : ProgramForm lateForm lateSource := by
  have hspelled {name : String} {type : Ty} (h : Ty.ofSpelling name = .ok type) :
      TypeForm (.symbol name) type :=
    .spelled (.symbol name) (Ty.ofSpelling_eq_ok_iff.1 h)
  have hmain : SignatureForm (.list [.symbol "fn", .symbol "void", .symbol "...", .symbol "..."])
      (.signature (.scalar "void") [.scalar "..."] true) :=
    .fn (hspelled (by cbv)) (.param (hspelled (by cbv)) (by simp) .dots)
  have hcalled : SignatureForm (.list [.symbol "fn", .list [.symbol "ptr", .symbol "i8*"]])
      (.signature (.pointer (.pointer (.scalar "i8"))) [] false) :=
    .fn (.pointer (hspelled (by cbv))) .none
  have hoperand : TypeForm (.text "const i8 *") (.pointer (.scalar "i8")) :=
    .spelled (.text _) (Ty.ofSpelling_eq_ok_iff.1 (by cbv))
  have hlate : SignatureForm (.list [.symbol "fn", .symbol "i32"])
      (.signature (.scalar "i32") [] false) :=
    .fn (hspelled (by cbv)) .none
  refine .unnamed (.cons (.define (.text _) hmain (.cons ?_ .nil))
    (.cons (.declare (.symbol _) hlate) .nil))
  refine .intro (.text _) (.cons ?_ (.cons ?_ .nil))
  · exact .intro .invoke (.indirect hcalled) (.cons (.ref (.symbol _)) .nil)
  · exact .intro .call (.named (.symbol _)) (.cons (.namedOperand hoperand (.symbol _)) .nil)

theorem ProgramForm.read_faithful_late :
    ProgramForm lateForm lateSource ∧ Program.ofSexpr lateForm = .ok lateSource ∧
      lateSource.Shown (lateSource.install .empty).1 (lateSource.install .empty).2 ∧
      ((lateSource.install .empty).1.program (lateSource.install .empty).2).revision = 5 := by
  have hknown : ∀ call ∈ lateSource.calls, call.Knows lateSource.names := by
    intro call hcall
    simp only [lateSource, Program.calls, Program.blocks, Function.blocks, Option.getD_some,
      Option.getD_none, List.flatMap_cons, List.flatMap_nil, List.append_nil, List.mem_cons,
      List.not_mem_nil, or_false] at hcall
    rcases hcall with rfl | rfl <;> constructor <;> simp [lateSource, Program.names]
  obtain ⟨hread, hshown⟩ := ProgramForm.read_faithful lateForm_denotes (by decide) hknown .empty
  exact ⟨lateForm_denotes, hread, hshown, hshown.revision⟩

end CallReach.Source
