import CallReach.Decimal.Shortest
import CallReach.Text.Quoted

/-!
# S-expressions

The trees of the textual program format, with two texts for each tree:
`Sexpr.print` is the written form, and `Sexpr.literal` names the kind of every
part, for the messages that say what stands where a name should stand.
-/

namespace CallReach

open Decimal Text

/-- An S-expression. -/
inductive Sexpr where
  | symbol (name : String)
  | text (value : String)
  | int (value : Int)
  | float (value : Binary64)
  | list (items : List Sexpr)
  /-- A list in square brackets. -/
  | brackets (items : List Sexpr)
  /-- An expression after an apostrophe. -/
  | quoted (inner : Sexpr)

namespace Sexpr

instance : Inhabited Sexpr := ⟨list []⟩

/-! ## Written form -/

/-- The characters that a symbol shows behind a backslash. -/
def symbolSpecials : List Char :=
  ['\x5c', '\x27', '\x60', '\x22', '(', ')', '[', ']', ' ', ',', '?', ';', '#']

/-- The escapes of a text literal: the character and the letter after the
backslash. -/
def textEscapes : List (Char × Char) :=
  [('\x5c', '\x5c'), ('\x22', '\x22'), ('\x08', 'b'), ('\x0c', 'f'), ('\n', 'n'), ('\r', 'r'),
   ('\t', 't')]

/-- One character of a symbol in its written form. -/
def printSymbolChar (c : Char) : List Char :=
  if symbolSpecials.contains c then ['\x5c', c] else [c]

/-- One character of a text literal in its written form. -/
def printTextChar (c : Char) : List Char :=
  match textEscapes.lookup c with
  | some letter => ['\x5c', letter]
  | none => [c]

mutual
/-- The written form of an expression. -/
def print : Sexpr → String
  | symbol name => String.ofList (name.toList.flatMap printSymbolChar)
  | text value => String.ofList ('\x22' :: value.toList.flatMap printTextChar ++ ['\x22'])
  | int value => toString value
  | float value => value.text
  | list items => "(" ++ " ".intercalate (prints items) ++ ")"
  | brackets items => "[" ++ " ".intercalate (prints items) ++ "]"
  | quoted inner => "'" ++ print inner

/-- The written forms of a list of expressions. -/
def prints : List Sexpr → List String
  | [] => []
  | item :: rest => print item :: prints rest
end

/-! ## Text that names the kinds -/

mutual
/-- An expression as messages show it. -/
def literal : Sexpr → String
  | symbol name => "Symbol(" ++ Text.quoted name ++ ")"
  | text value => Text.quoted value
  | int value => toString value
  | float value => value.text
  | list items => "[" ++ ", ".intercalate (literals items) ++ "]"
  | brackets items => "Brackets(I=[" ++ ", ".intercalate (literals items) ++ "])"
  | quoted inner => "Quoted(" ++ literal inner ++ ")"

/-- The texts of a list of expressions. -/
def literals : List Sexpr → List String
  | [] => []
  | item :: rest => literal item :: literals rest
end

end Sexpr

end CallReach
