import CallReach.Json.Basic
import CallReach.Text.Blank
import CallReach.Ty.Basic

/-!
# Type spellings

A spelling is a text such as `const i8 *`: qualifiers and extra blanks do not
count, and every star at the end wraps the type in a pointer.  A qualifier is a
word of its own, so one that touches a star is part of the name.  A torn text is
no spelling here, since the names of types are texts of characters.
-/

namespace CallReach

open Text

/-- Why a value is not a type. -/
inductive TypeFault where
  /-- Nothing is left of a spelling once qualifiers and stars are gone. -/
  | emptySpelling (text : String)
  /-- The value is not a text. -/
  | notSpelling (value : Json)
deriving DecidableEq

/-- The wording of a fault. -/
def TypeFault.message : TypeFault → String
  | emptySpelling text => "Empty type spelling: " ++ quoted text
  | notSpelling value => "Cannot interpret " ++ value.literal ++ " as a type"

namespace Ty

/-- The words of a spelling that say nothing about the type. -/
def qualifiers : List (List Char) :=
  ["const", "volatile", "restrict", "__restrict", "__volatile", "__const"].map String.toList

/-- A spelling without qualifiers and with single spaces. -/
def normalize (spelling : List Char) : List Char :=
  unwords ((words spelling).filter fun word => !qualifiers.contains word)

/-- Takes the stars off the end of a text, which is given backwards: their
number and what is left. -/
def peelStars : List Char → Nat × List Char
  | '*' :: rest =>
      let (depth, base) := peelStars (rest.dropWhile isBlank)
      (depth + 1, base)
  | base => (0, base)
termination_by text => text.length
decreasing_by
  have := (List.dropWhile_sublist isBlank (l := rest)).length_le
  simp only [List.length_cons]
  omega

/-- The type that a spelling denotes. -/
def ofSpelling (spelling : String) : Except TypeFault Ty :=
  let (depth, base) := peelStars (normalize spelling.toList).reverse
  if base.isEmpty then .error (.emptySpelling spelling)
  else .ok (pointers depth (scalar (String.ofList base.reverse)))

/-- The type that a value denotes, which has to be a spelling. -/
def ofJson : Json → Except TypeFault Ty
  | .str (.whole spelling) => ofSpelling spelling
  | value => .error (.notSpelling value)

end Ty

end CallReach
