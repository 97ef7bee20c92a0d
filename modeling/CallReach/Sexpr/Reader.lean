import CallReach.Decimal.Numeral
import CallReach.Sexpr.Basic

/-!
# Reading S-expressions

One pass over the characters, with a stack of the lists that are still open.
An apostrophe opens a list too: it takes the whole rest of the list around it,
and when that list ends its first element is the quoted one.  The recursion is
on the characters that are left, so the reader is total.
-/

namespace CallReach.Sexpr

open Decimal

/-! ## Faults -/

/-- The two kinds of brackets. -/
inductive Bracket where
  | round
  | square
deriving DecidableEq, Repr

/-- The character that closes a bracket. -/
def Bracket.closer : Bracket → Char
  | round => ')'
  | square => ']'

/-- The list between brackets of a kind. -/
def Bracket.enclose (items : List Sexpr) : Bracket → Sexpr
  | round => list items
  | square => Sexpr.brackets items

/-- Why a text is not a sequence of expressions. -/
inductive Fault where
  /-- A text literal does not end. -/
  | unterminatedText
  /-- A bracket is closed by something else, or not at all. -/
  | unclosed (bracket : Bracket) (found : Option Char)
  /-- Nothing follows an apostrophe. -/
  | emptyQuote (position : Nat)
  /-- A closing bracket has no opening one. -/
  | unopened (rest : String)
  /-- There is not exactly one expression. -/
  | notSingle
deriving DecidableEq, Repr

/-- The wording of a fault. -/
def Fault.message : Fault → String
  | unterminatedText => "'NoneType' object has no attribute 'start'"
  | unclosed bracket found =>
      "Not enough closing brackets. Expected '" ++ bracket.closer.toString ++
        "' to be the last letter in the sexp. Got: " ++
        match found with
        | some c => Text.quoted c.toString
        | none => "None"
  | emptyQuote position =>
      "No s-exp is found after an apostrophe at position " ++ toString position
  | unopened rest =>
      "Too many closing brackets. Expected no character left in the sexp. Got: " ++
        Text.quoted rest
  | notSingle => ""

/-! ## Lexical parts -/

/-- The blanks between expressions. -/
def isSpace (c : Char) : Bool :=
  c = ' ' || c = '\t' || c = '\n' || c = '\r' || c = '\x0b' || c = '\x0c'

/-- A character that ends an atom. -/
def endsAtom (c : Char) : Bool :=
  c = '(' || c = ')' || c = '[' || c = ']' || c = '\x22' || c = ';' || isSpace c

/-- What a backslash and a character stand for in a text literal. -/
def textEscape (c : Char) : List Char :=
  match textEscapes.find? (·.2 = c) with
  | some (meant, _) => [meant]
  | none => ['\x5c', c]

/-- What a backslash and a character stand for in an atom. -/
def atomEscape (c : Char) : List Char :=
  if symbolSpecials.contains c then [c] else ['\x5c', c]

/-- The value of a text literal whose opening quote was read, and what follows
its closing quote. -/
def textBody? : List Char → Option (List Char × List Char)
  | [] => none
  | c :: rest =>
      if c = '\x22' then some ([], rest)
      else if c = '\x5c' then
        match rest with
        | [] => none
        | d :: rest => (textBody? rest).map fun (value, after) => (textEscape d ++ value, after)
      else (textBody? rest).map fun (value, after) => (c :: value, after)

/-- The characters of an atom, with escapes undone, and what follows it. -/
def atomBody : List Char → List Char × List Char
  | [] => ([], [])
  | c :: rest =>
      if c = '\x5c' then
        match rest with
        | [] => (['\x5c'], [])
        | d :: rest =>
            let (value, after) := atomBody rest
            (atomEscape d ++ value, after)
      else if endsAtom c then ([], c :: rest)
      else
        let (value, after) := atomBody rest
        (c :: value, after)

/-- An atom is an integer or a floating point number if it can be read as one,
and a symbol otherwise. -/
def ofAtom (chars : List Char) : Sexpr :=
  match integer? chars with
  | some n => int n
  | none =>
      match float? chars with
      | some x => float x
      | none => symbol (String.ofList chars)

theorem textBody?_length {chars value rest : List Char}
    (h : textBody? chars = some (value, rest)) : rest.length < chars.length := by
  fun_induction textBody? chars generalizing value rest with
  | case1 => simp at h
  | case2 => simp_all
  | case3 => simp at h
  | case4 _ _ _ ih | case5 _ _ _ _ ih =>
      obtain ⟨⟨_, _⟩, hbody, heq⟩ := Option.map_eq_some_iff.1 h
      have := ih hbody
      simp_all
      omega

theorem atomBody_length (chars : List Char) : (atomBody chars).2.length ≤ chars.length := by
  fun_induction atomBody chars <;> simp_all <;> omega

theorem atomBody_length_lt {c : Char} (rest : List Char) (h : endsAtom c = false) :
    (atomBody (c :: rest)).2.length < (c :: rest).length := by
  unfold atomBody
  split
  · split
    · simp
    · rename_i d rest
      have := atomBody_length rest
      simp only [List.length_cons]
      omega
  · have := atomBody_length rest
    simp [h]
    omega

/-! ## Open lists -/

/-- What opened a list. -/
inductive Opener where
  | bracket (kind : Bracket)
  | apostrophe (position : Nat)
deriving DecidableEq, Repr

/-- A list that is still open: what opened it, and the elements, last first,
of the list around it. -/
structure Frame where
  opener : Opener
  outer : List Sexpr

/-- Ends the lists that an apostrophe opened, innermost first, down to the next
bracket.  Elements are held last first. -/
def closeQuotes (elements : List Sexpr) :
    List Frame → Except Fault (List Sexpr × List Frame)
  | ⟨.apostrophe position, outer⟩ :: frames =>
      match elements.reverse with
      | [] => .error (.emptyQuote position)
      | first :: others => closeQuotes (others.reverse ++ quoted first :: outer) frames
  | frames => .ok (elements, frames)

/-- Reads the characters that are left.  `total` is the length of the whole
text, and the elements of the innermost open list are held last first. -/
def readFrom (total : Nat) (elements : List Sexpr) (frames : List Frame) :
    List Char → Except Fault (List Sexpr)
  | [] => do
      let (elements, frames) ← closeQuotes elements frames
      match frames with
      | ⟨.bracket kind, _⟩ :: _ => .error (.unclosed kind none)
      | _ => .ok elements.reverse
  | c :: rest =>
      if c = '\x22' then
        match _htext : textBody? rest with
        | none => .error .unterminatedText
        | some (value, after) =>
            readFrom total (text (String.ofList value) :: elements) frames after
      else if isSpace c then readFrom total elements frames rest
      else if c = '(' then readFrom total [] (⟨.bracket .round, elements⟩ :: frames) rest
      else if c = '[' then readFrom total [] (⟨.bracket .square, elements⟩ :: frames) rest
      else if c = ')' ∨ c = ']' then
        match closeQuotes elements frames with
        | .error fault => .error fault
        | .ok (elements, ⟨.bracket kind, outer⟩ :: frames) =>
            if c = kind.closer then
              readFrom total (kind.enclose elements.reverse :: outer) frames rest
            else .error (.unclosed kind (some c))
        | .ok _ => .error (.unopened (String.ofList (c :: rest)))
      else if c = '\x27' then
        readFrom total [] (⟨.apostrophe (total - (rest.length + 1)), elements⟩ :: frames) rest
      else if c = ';' then
        readFrom total elements frames ((rest.dropWhile (· ≠ '\n')).drop 1)
      else if _hends : endsAtom c = false then
        match _hatom : atomBody (c :: rest) with
        | (value, after) => readFrom total (ofAtom value :: elements) frames after
      else readFrom total elements frames rest
termination_by chars => chars.length
decreasing_by
  · have := textBody?_length _htext
    simp only [List.length_cons]
    omega
  all_goals simp_wf
  · have := (List.dropWhile_sublist (· ≠ '\n') (l := rest)).length_le
    simp only [ne_eq, decide_not] at this
    omega
  · simpa [_hatom] using atomBody_length_lt rest _hends

/-- The expressions of a text. -/
def readAll (chars : List Char) : Except Fault (List Sexpr) :=
  readFrom chars.length [] [] chars

end CallReach.Sexpr
