import CallReach.Json.Basic

/-!
# Printing JSON

The text of a JSON value with ASCII characters only: on one line, or with two
blanks of indentation for each level.  Characters outside ASCII are written as
`\u` escapes of their UTF-16 units.
-/

namespace CallReach.Json

open Text

/-- One UTF-16 unit as an escape. -/
def unitEscape (unit : Nat) : List Char :=
  '\x5c' :: 'u' :: padDigits 16 4 unit

/-- One character of a JSON string. -/
def escapeChar (c : Char) : List Char :=
  let n := c.toNat
  if c = '\x22' || c = '\x5c' then ['\x5c', c]
  else if c = '\n' then ['\x5c', 'n']
  else if c = '\r' then ['\x5c', 'r']
  else if c = '\t' then ['\x5c', 't']
  else if n = 0x0C then ['\x5c', 'f']
  else if n = 0x08 then ['\x5c', 'b']
  else if 0x20 ≤ n ∧ n < 0x7F then [c]
  else if n < 0x10000 then unitEscape n
  else
    unitEscape (0xD800 + (n - 0x10000) / 0x400) ++ unitEscape (0xDC00 + (n - 0x10000) % 0x400)

/-- A JSON string. -/
def stringText (s : Wide) : String :=
  String.ofList ('\x22' :: s.pieces.flatMap (Piece.shown escapeChar) ++ ['\x22'])

/-- The text of a floating point number. -/
def floatText : Decimal.Binary64 → String
  | .nan => "NaN"
  | .infinite negative => if negative then "-Infinity" else "Infinity"
  | x => x.text

/-- How the parts of a compound value are laid out. -/
structure Layout where
  /-- What stands between two parts. -/
  separator : Nat → String
  /-- What stands before the first part. -/
  opening : Nat → String
  /-- What stands after the last part. -/
  closing : Nat → String

/-- Everything on one line. -/
def Layout.compact : Layout where
  separator _ := ", "
  opening _ := ""
  closing _ := ""

/-- A new line and indentation, two blanks for each level. -/
def newLine (level : Nat) : String :=
  "\n" ++ String.ofList (List.replicate (2 * level) ' ')

/-- One part on each line. -/
def Layout.indented : Layout where
  separator level := "," ++ newLine (level + 1)
  opening level := newLine (level + 1)
  closing level := newLine level

/-- The parts of a compound value between brackets; nothing stands between the
brackets of an empty one. -/
def Layout.enclose (layout : Layout) (level : Nat) (left right : String) (parts : List String) :
    String :=
  match parts with
  | [] => left ++ right
  | _ =>
      left ++ layout.opening level ++ (layout.separator level).intercalate parts ++
        layout.closing level ++ right

mutual
/-- The text of a value at a nesting level. -/
def renderAt (layout : Layout) (level : Nat) : Json → String
  | null => "null"
  | bool true => "true"
  | bool false => "false"
  | int n => toString n
  | float x => floatText x
  | str s => stringText s
  | arr items => layout.enclose level "[" "]" (renderItems layout (level + 1) items)
  | obj members => layout.enclose level "\x7b" "\x7d" (renderMembers layout (level + 1) members)

/-- The texts of a list of values. -/
def renderItems (layout : Layout) (level : Nat) : List Json → List String
  | [] => []
  | item :: rest => renderAt layout level item :: renderItems layout level rest

/-- The texts of a list of members. -/
def renderMembers (layout : Layout) (level : Nat) : List (Wide × Json) → List String
  | [] => []
  | (key, value) :: rest =>
      (stringText key ++ ": " ++ renderAt layout level value) :: renderMembers layout level rest
end

/-- A value on one line. -/
def compact (value : Json) : String :=
  renderAt .compact 0 value

/-- A value with one part on each line. -/
def pretty (value : Json) : String :=
  renderAt .indented 0 value

end CallReach.Json
