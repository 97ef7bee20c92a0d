import CallReach.Sexpr.Reader

/-!
# Formats of expressions

How expressions are read, written and shown is left to a `Format`.  What a
format has to keep is that a text which starts with a round bracket is read as a
list or not at all; so the forms of a program, which are read between two
brackets, are the elements of a list.

`Format.standard` reads with `readAll` and writes with `print`.  Its law is an
invariant of the reader: what was opened first stays first.
-/

namespace CallReach.Sexpr

/-- Whether an expression is a list in round brackets. -/
def isList : Sexpr → Bool
  | list _ => true
  | _ => false

/-- The elements of a list. -/
def items : (form : Sexpr) → form.isList = true → List Sexpr
  | list items, _ => items

/-- A textual form of expressions. -/
structure Format where
  /-- The expression of a text, or what is said about the text. -/
  loads : List Char → Except String Sexpr
  /-- The written form of an expression. -/
  dumps : Sexpr → String
  /-- An expression as messages show it. -/
  literal : Sexpr → String
  isList_of_loads {chars : List Char} {form : Sexpr} :
    loads ('(' :: chars) = .ok form → form.isList = true

namespace Format

variable {format : Format} {text : List Char}

/-- The forms of a program text.  They are read as one list, between a bracket
in front of the text and a bracket on a line of its own after it. -/
def forms (format : Format) (text : List Char) : Except String (List Sexpr) :=
  match h : format.loads ('(' :: (text ++ ['\n', ')'])) with
  | .error reason => .error reason
  | .ok form => .ok (form.items (format.isList_of_loads h))

theorem forms_of_ok {items : List Sexpr}
    (h : format.loads ('(' :: (text ++ ['\n', ')'])) = .ok (list items)) :
    format.forms text = .ok items := by
  unfold forms
  split
  · next hloads => cases hloads.symm.trans h
  · next hloads =>
    cases hloads.symm.trans h
    rfl

theorem forms_of_error {reason : String}
    (h : format.loads ('(' :: (text ++ ['\n', ')'])) = .error reason) :
    format.forms text = .error reason := by
  unfold forms
  split
  · next hloads =>
    cases hloads.symm.trans h
    rfl
  · next hloads => cases hloads.symm.trans h

end Format

/-! ## What was opened first -/

/-- The outermost list was opened by a round bracket, or its first element is a
list already. -/
def StartsWithList (elements : List Sexpr) : List Frame → Prop
  | [] => ∃ items, elements.getLast? = some (list items)
  | frame :: frames =>
      (frame = ⟨.bracket .round, []⟩ ∧ frames = []) ∨ StartsWithList frame.outer frames

namespace StartsWithList

variable {elements outer : List Sexpr} {frames : List Frame}

theorem append (more : List Sexpr) (h : StartsWithList elements frames) :
    StartsWithList (more ++ elements) frames := by
  cases frames with
  | nil =>
    obtain ⟨items, hlast⟩ := h
    exact ⟨items, by simp [List.getLast?_append, hlast]⟩
  | cons frame frames => exact h

theorem cons (form : Sexpr) (h : StartsWithList elements frames) :
    StartsWithList (form :: elements) frames :=
  h.append [form]

theorem push {frame : Frame} (h : StartsWithList frame.outer frames) :
    StartsWithList [] (frame :: frames) :=
  .inr h

theorem closeQuotes {left : List Sexpr} {rest : List Frame} (h : StartsWithList elements frames)
    (hclose : Sexpr.closeQuotes elements frames = .ok (left, rest)) :
    StartsWithList left rest := by
  fun_induction Sexpr.closeQuotes elements frames with
  | case1 => cases hclose
  | case2 elements position outer frames first others hreverse ih =>
    rcases h with ⟨hframe, -⟩ | houter
    · cases hframe
    · refine ih ?_ hclose
      simpa using houter.append (others.reverse ++ [quoted first])
  | case3 elements frames =>
    cases hclose
    exact h

/-- Closing the bracket that was opened first gives the first list. -/
theorem close {kind : Bracket} (h : StartsWithList elements (⟨.bracket kind, outer⟩ :: frames)) :
    StartsWithList (kind.enclose elements.reverse :: outer) frames := by
  rcases h with ⟨hframe, rfl⟩ | houter
  · cases hframe
    exact ⟨elements.reverse, rfl⟩
  · exact houter.cons _

end StartsWithList

/-- After the quotes are closed, nothing or a bracket is open. -/
theorem closeQuotes_frames {elements left : List Sexpr} {frames rest : List Frame}
    (h : closeQuotes elements frames = .ok (left, rest)) :
    rest = [] ∨ ∃ kind outer above, rest = ⟨.bracket kind, outer⟩ :: above := by
  fun_induction closeQuotes elements frames with
  | case1 => cases h
  | case2 _ _ _ _ _ _ _ ih => exact ih h
  | case3 elements frames hframes =>
    cases h
    rcases rest with _ | ⟨⟨opener, outer⟩, above⟩
    · exact .inl rfl
    · cases opener with
      | bracket kind => exact .inr ⟨kind, outer, above, rfl⟩
      | apostrophe position => exact (hframes position outer above rfl).elim

theorem head?_of_readFrom {total : Nat} {elements : List Sexpr} {frames : List Frame}
    {chars : List Char} {forms : List Sexpr} (h : StartsWithList elements frames)
    (hread : readFrom total elements frames chars = .ok forms) :
    ∃ items, forms.head? = some (list items) := by
  fun_induction readFrom total elements frames chars with
  | case1 elements frames =>
    cases hclose : closeQuotes elements frames with
    | error fault =>
      rw [hclose] at hread
      cases hread
    | ok closed =>
      obtain ⟨left, rest⟩ := closed
      rw [hclose] at hread
      rcases closeQuotes_frames hclose with rfl | ⟨kind, outer, above, rfl⟩
      · cases hread
        obtain ⟨items, hlast⟩ := h.closeQuotes hclose
        exact ⟨items, by rw [List.head?_reverse, hlast]⟩
      · cases hread
  | case2 | case7 | case9 | case10 => cases hread
  | case3 _ _ _ _ _ _ ih => exact ih (h.cons _) hread
  | case4 _ _ _ _ _ _ ih => exact ih h hread
  | case5 _ _ _ _ _ ih | case6 _ _ _ _ _ _ ih => exact ih h.push hread
  | case8 elements frames rest left kind outer above hclose _ _ _ _ _ ih =>
    exact ih (h.closeQuotes hclose).close hread
  | case11 _ _ _ _ _ _ _ _ ih => exact ih h.push hread
  | case12 _ _ _ _ _ _ _ _ _ ih => exact ih h hread
  | case13 _ _ _ _ _ _ _ _ _ _ _ _ _ _ _ ih => exact ih (h.cons _) hread
  | case14 _ _ _ _ _ _ _ _ _ _ _ _ ih => exact ih h hread

/-- A text that starts with a round bracket starts with a list. -/
theorem head?_of_readAll {chars : List Char} {forms : List Sexpr}
    (h : readAll ('(' :: chars) = .ok forms) : ∃ items, forms.head? = some (list items) := by
  have hstart : StartsWithList [] [⟨.bracket .round, []⟩] := .inl ⟨rfl, rfl⟩
  rw [readAll, readFrom] at h
  exact head?_of_readFrom hstart h

/-! ## The format that is read and printed here -/

/-- The only expression of a text. -/
def load (chars : List Char) : Except String Sexpr :=
  match readAll chars with
  | .error fault => .error fault.message
  | .ok [form] => .ok form
  | .ok _ => .error Fault.notSingle.message

theorem isList_of_load {chars : List Char} {form : Sexpr} (h : load ('(' :: chars) = .ok form) :
    form.isList = true := by
  unfold load at h
  split at h
  · cases h
  · next hread =>
    cases h
    obtain ⟨items, hhead⟩ := head?_of_readAll hread
    cases hhead
    rfl
  · cases h

/-- The format of `readAll` and `print`. -/
def Format.standard : Format where
  loads := load
  dumps := print
  literal := Sexpr.literal
  isList_of_loads := isList_of_load

end CallReach.Sexpr
