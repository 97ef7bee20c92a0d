import CallReach.Decimal.Numeral
import CallReach.Json.Basic

/-!
# Reading JSON

A reader that says where and why a text is not JSON.  Beyond the standard it
takes `NaN`, `Infinity` and `-Infinity`, and of two members with the same key
it keeps the place of the first and the value of the last.  An integer has at
most as many digits as any integer that is read from a text, and arrays and
objects are nested up to a limit that the reader is given.  A place is the
number of characters that are left, which the outermost function turns into a
position.
-/

namespace CallReach.Json

open Decimal Text

/-! ## Faults -/

/-- The values that hold other values. -/
inductive Compound where
  | array
  | object
deriving DecidableEq, Repr

/-- The name of a kind of compound values. -/
def Compound.name : Compound → String
  | array => "array"
  | object => "object"

/-- What is wrong at a place of the text. -/
inductive Flaw where
  | expectingValue
  | expectingName
  | expectingColon
  | expectingComma
  | extraData
  | unterminatedString
  | invalidEscape
  | invalidUnitEscape
  | controlCharacter
  | byteOrderMark
  /-- An integer has this many digits, which is too many. -/
  | tooManyDigits (count : Nat)
  /-- A compound value begins at the limit of nesting. -/
  | tooDeep (kind : Compound)
deriving DecidableEq, Repr

/-- The wording of a flaw. -/
def Flaw.message : Flaw → String
  | .expectingValue => "Expecting value"
  | .expectingName => "Expecting property name enclosed in double quotes"
  | .expectingColon => "Expecting ':' delimiter"
  | .expectingComma => "Expecting ',' delimiter"
  | .extraData => "Extra data"
  | .unterminatedString => "Unterminated string starting at"
  | .invalidEscape => "Invalid \\escape"
  | .invalidUnitEscape => "Invalid \\uXXXX escape"
  | .controlCharacter => "Invalid control character at"
  | .byteOrderMark => "Unexpected UTF-8 BOM (decode using utf-8-sig)"
  | .tooManyDigits count =>
      "Exceeds the limit (" ++ toString maxIntegerDigits ++
        " digits) for integer string conversion: value has " ++ toString count ++
        " digits; use sys.set_int_max_str_digits() to increase the limit"
  | .tooDeep kind =>
      "maximum recursion depth exceeded while decoding a JSON " ++ kind.name ++
        " from a unicode string"

/-- A flaw with the number of characters that are left at its place. -/
structure Stop where
  flaw : Flaw
  left : Nat
deriving DecidableEq, Repr

/-- A flaw with its place: line and column count from one, the offset from
zero. -/
structure Fault where
  flaw : Flaw
  line : Nat
  column : Nat
  offset : Nat
deriving DecidableEq, Repr

/-- The wording of a fault. -/
def Fault.message (fault : Fault) : String :=
  fault.flaw.message ++ ": line " ++ toString fault.line ++ " column " ++
    toString fault.column ++ " (char " ++ toString fault.offset ++ ")"

/-- The fault at an offset of a text. -/
def Fault.locate (text : List Char) (flaw : Flaw) (offset : Nat) : Fault :=
  let before := text.take offset
  { flaw
    line := before.count '\n' + 1
    column := (before.reverse.takeWhile (· ≠ '\n')).length + 1
    offset }

/-! ## Lexical parts -/

/-- The blanks of JSON. -/
def isSpace (c : Char) : Bool :=
  c = ' ' || c = '\t' || c = '\n' || c = '\r'

/-- A text without the blanks in front. -/
def skipSpaces (text : List Char) : List Char :=
  text.dropWhile isSpace

/-- The value of a hexadecimal digit. -/
def hexValue? (c : Char) : Option Nat :=
  if '0' ≤ c ∧ c ≤ '9' then some (c.toNat - '0'.toNat)
  else if 'a' ≤ c ∧ c ≤ 'f' then some (c.toNat - 'a'.toNat + 10)
  else if 'A' ≤ c ∧ c ≤ 'F' then some (c.toNat - 'A'.toNat + 10)
  else none

/-- The unit that four hexadecimal digits denote. -/
def unit? (a b c d : Char) : Option Nat := do
  return ((← hexValue? a) * 16 + (← hexValue? b)) * 256 + (← hexValue? c) * 16 + (← hexValue? d)

/-- The character that a one-letter escape denotes. -/
def simpleEscape? (c : Char) : Option Char :=
  if c = '\x22' || c = '\x5c' || c = '/' then some c
  else if c = 'b' then some '\x08'
  else if c = 'f' then some '\x0c'
  else if c = 'n' then some '\n'
  else if c = 'r' then some '\r'
  else if c = 't' then some '\t'
  else none

/-- The second half of a surrogate pair at the front of a text that goes on
after it. -/
def lowHalf? : List Char → Option (Except Nat Nat × List Char)
  | '\x5c' :: 'u' :: a :: b :: c :: d :: e :: rest =>
      match unit? a b c d with
      | none => some (.error (rest.length + 6), [])
      | some low => if 0xDC00 ≤ low ∧ low < 0xE000 then some (.ok low, e :: rest) else none
  | _ => none

/-- The rest of a string whose opening quote was read; `whole` is the number of
characters that were left at that quote. -/
def stringBody (fuel whole : Nat) (text : List Char) (acc : List Piece) :
    Except Stop (Wide × List Char) :=
  match fuel, text with
  | 0, _ | _, [] => .error ⟨.unterminatedString, whole⟩
  | fuel + 1, c :: rest =>
      if c = '\x22' then .ok (.ofPieces acc.reverse, rest)
      else if c.toNat ≤ 0x1F then .error ⟨.controlCharacter, text.length⟩
      else if c ≠ '\x5c' then stringBody fuel whole rest (.char c :: acc)
      else
        match rest with
        | [] => .error ⟨.unterminatedString, whole⟩
        | 'u' :: a :: b :: c :: d :: e :: after =>
            match unit? a b c d with
            | none => .error ⟨.invalidUnitEscape, rest.length⟩
            | some unit =>
                if 0xD800 ≤ unit ∧ unit < 0xDC00 then
                  match lowHalf? (e :: after) with
                  | some (.error left, _) => .error ⟨.invalidUnitEscape, left⟩
                  | some (.ok low, after) =>
                      let n := 0x10000 + (unit - 0xD800) * 0x400 + (low - 0xDC00)
                      stringBody fuel whole after (.char (Char.ofNat n) :: acc)
                  | none => stringBody fuel whole (e :: after) (.ofCode unit :: acc)
                else stringBody fuel whole (e :: after) (.ofCode unit :: acc)
        | 'u' :: _ => .error ⟨.invalidUnitEscape, rest.length⟩
        | mark :: after =>
            match simpleEscape? mark with
            | some c => stringBody fuel whole after (.char c :: acc)
            | none => .error ⟨.invalidEscape, text.length⟩

/-- An ASCII digit. -/
def isDigit (c : Char) : Bool :=
  '0' ≤ c && c ≤ '9'

/-- The integer part of a number: a zero alone, or digits that do not start
with zero. -/
def wholePart? : List Char → Option (List Char × List Char)
  | '0' :: rest => some (['0'], rest)
  | c :: rest =>
      if isDigit c then some (c :: rest.takeWhile isDigit, rest.dropWhile isDigit) else none
  | [] => none

/-- The digits after a point, when there are any. -/
def fractionPart : List Char → List Char × List Char
  | '.' :: c :: rest =>
      if isDigit c then (c :: rest.takeWhile isDigit, rest.dropWhile isDigit)
      else ([], '.' :: c :: rest)
  | rest => ([], rest)

/-- The exponent, when there is a complete one. -/
def exponentPart (text : List Char) : Option Int × List Char :=
  match text with
  | mark :: rest =>
      if mark = 'e' || mark = 'E' then
        let (negative, body) := splitSign rest
        match body.takeWhile isDigit with
        | [] => (none, text)
        | digits =>
            let value : Int := ofDigits (digits.map fun d => d.toNat - '0'.toNat)
            (some (if negative then -value else value), body.dropWhile isDigit)
      else (none, text)
  | [] => (none, text)
where
  /-- Splits off a sign; `true` is a minus. -/
  splitSign : List Char → Bool × List Char
    | '-' :: rest => (true, rest)
    | '+' :: rest => (false, rest)
    | rest => (false, rest)

/-- A number as it is written. -/
inductive Number where
  | int (negative : Bool) (digits : List Char)
  | float (value : Binary64)

/-- The number that digits denote. -/
def ofDigitChars (digits : List Char) : Nat :=
  ofDigits (digits.map fun d => d.toNat - '0'.toNat)

/-- The value of a number at a place. -/
def Number.toJson (left : Nat) : Number → Except Stop Json
  | int negative digits =>
      if maxIntegerDigits < digits.length then .error ⟨.tooManyDigits digits.length, left⟩
      else
        let value : Int := ofDigitChars digits
        .ok (.int (if negative then -value else value))
  | float value => .ok (.float value)

/-- A number: a floating point one when it has a fraction or an exponent. -/
def number? (text : List Char) : Option (Number × List Char) := do
  let (negative, body) := match text with
    | '-' :: rest => (true, rest)
    | rest => (false, rest)
  let (whole, rest) ← wholePart? body
  let (fractional, rest) := fractionPart rest
  let (exponent, rest) := exponentPart rest
  if fractional.isEmpty && exponent.isNone then return (.int negative whole, rest)
  else
    let power : Int := exponent.getD 0 - fractional.length
    return (.float (Binary64.ofDecimal negative (ofDigitChars (whole ++ fractional)) power), rest)

/-- The words that denote a value. -/
def wordValues : List (String × Json) :=
  [("null", .null), ("true", .bool true), ("false", .bool false), ("NaN", .float .nan),
   ("Infinity", .float (.infinite false)), ("-Infinity", .float (.infinite true))]

/-- A value written as a word. -/
def word? (text : List Char) : Option (Json × List Char) :=
  wordValues.findSome? fun (word, value) =>
    if word.toList.isPrefixOf text then some (value, text.drop word.length) else none

/-! ## Values -/

mutual
/-- A value at the front of a text, with compound values inside each other up to
a limit. -/
def value (nesting fuel : Nat) (text : List Char) : Except Stop (Json × List Char) :=
  match fuel, text with
  | 0, _ | _, [] => .error ⟨.expectingValue, text.length⟩
  | _ + 1, '\x22' :: rest => do
      let (s, rest) ← stringBody text.length text.length rest []
      return (.str s, rest)
  | fuel + 1, '\x7b' :: rest =>
      match nesting with
      | 0 => .error ⟨.tooDeep .object, text.length⟩
      | nesting + 1 =>
          match skipSpaces rest with
          | '\x7d' :: rest => .ok (.obj [], rest)
          | rest => members nesting fuel rest []
  | fuel + 1, '[' :: rest =>
      match nesting with
      | 0 => .error ⟨.tooDeep .array, text.length⟩
      | nesting + 1 =>
          match skipSpaces rest with
          | ']' :: rest => .ok (.arr [], rest)
          | rest => items nesting fuel rest []
  | _ + 1, text =>
      match word? text, number? text with
      | some found, _ => .ok found
      | none, some (number, rest) => return (← number.toJson text.length, rest)
      | none, none => .error ⟨.expectingValue, text.length⟩

/-- The rest of an array, from the start of a value on. -/
def items (nesting fuel : Nat) (text : List Char) (acc : List Json) :
    Except Stop (Json × List Char) :=
  match fuel with
  | 0 => .error ⟨.expectingValue, text.length⟩
  | fuel + 1 => do
      let (item, rest) ← value nesting fuel text
      match skipSpaces rest with
      | ']' :: rest => return (.arr (item :: acc).reverse, rest)
      | ',' :: rest => items nesting fuel (skipSpaces rest) (item :: acc)
      | rest => .error ⟨.expectingComma, rest.length⟩

/-- The rest of an object, from the start of a name on. -/
def members (nesting fuel : Nat) (text : List Char) (acc : List (Wide × Json)) :
    Except Stop (Json × List Char) :=
  match fuel, text with
  | 0, _ => .error ⟨.expectingName, text.length⟩
  | fuel + 1, '\x22' :: rest => do
      let (key, rest) ← stringBody text.length text.length rest []
      match skipSpaces rest with
      | ':' :: rest =>
          let (item, rest) ← value nesting fuel (skipSpaces rest)
          let acc := setMember key item acc
          match skipSpaces rest with
          | '\x7d' :: rest => return (.obj acc, rest)
          | ',' :: rest => members nesting fuel (skipSpaces rest) acc
          | rest => .error ⟨.expectingComma, rest.length⟩
      | rest => .error ⟨.expectingColon, rest.length⟩
  | _, text => .error ⟨.expectingName, text.length⟩
end

/-- The value that a whole text denotes.  Every character takes at most two
steps, so the steps that are allowed are never used up. -/
def document (nesting : Nat) (text : List Char) : Except Stop Json :=
  match text with
  | '\uFEFF' :: _ => .error ⟨.byteOrderMark, text.length⟩
  | _ => do
      let (found, rest) ← value nesting (2 * text.length + 2) (skipSpaces text)
      match skipSpaces rest with
      | [] => return found
      | rest => .error ⟨.extraData, rest.length⟩

/-- The value that a whole text denotes, or the fault.  Compound values are
nested up to a limit. -/
def parse (nesting : Nat) (text : List Char) : Except Fault Json :=
  match document nesting text with
  | .ok found => .ok found
  | .error stop => .error (Fault.locate text stop.flaw (text.length - stop.left))

end CallReach.Json
