import CallReach.Decimal.Binary64
import CallReach.Text.Blank
import CallReach.Text.Digit

/-!
# Numerals

Reading a text as an integer or as a floating point number.  Blanks around the
numeral are ignored, digits of every script count, and single underscores may
stand between two digits.  An integer has at most 4300 digits.
-/

namespace CallReach.Decimal

open Text

/-- The values of a non-empty run of digits, with single underscores between
digits only. -/
def digitRun? : List Char → Option (List Nat)
  | [] => none
  | [c] => (digitValue? c).map ([·])
  | c :: '_' :: rest => do
      let d ← digitValue? c
      return d :: (← digitRun? rest)
  | c :: rest => do
      let d ← digitValue? c
      return d :: (← digitRun? rest)

/-- A numeral without the blanks around it. -/
def trimNumeral (text : List Char) : List Char :=
  trim (fun c => isBlank c && !isSeparator c) text

/-- Splits off a sign; `true` is a minus. -/
def splitSign : List Char → Bool × List Char
  | '-' :: rest => (true, rest)
  | '+' :: rest => (false, rest)
  | rest => (false, rest)

/-- The greatest number of digits of an integer. -/
def maxIntegerDigits : Nat := 4300

/-- The integer that a text denotes. -/
def integer? (text : List Char) : Option Int := do
  let (negative, body) := splitSign (trimNumeral text)
  let digits ← digitRun? body
  guard (digits.length ≤ maxIntegerDigits)
  let value : Int := ofDigits digits
  return if negative then -value else value

/-- A run of digits that may be empty. -/
def optionalRun? (text : List Char) : Option (List Nat) :=
  if text.isEmpty then some [] else digitRun? text

/-- The exponent part of a numeral, without its mark. -/
def exponentPart? (text : List Char) : Option Int := do
  let (negative, body) := splitSign text
  let value : Int := ofDigits (← digitRun? body)
  return if negative then -value else value

/-- A decimal with an optional point and an optional exponent. -/
def decimal? (negative : Bool) (text : List Char) : Option Binary64 := do
  let isMark (c : Char) : Bool := c = 'e' || c = 'E'
  let mantissa := text.takeWhile (!isMark ·)
  let exponent ← match text.dropWhile (!isMark ·) with
    | [] => some 0
    | _ :: rest => exponentPart? rest
  let whole ← optionalRun? (mantissa.takeWhile (· ≠ '.'))
  let fractional ← optionalRun? ((mantissa.dropWhile (· ≠ '.')).drop 1)
  let digits := whole ++ fractional
  guard (!digits.isEmpty)
  return Binary64.ofDecimal negative (ofDigits digits) (exponent - fractional.length)

/-- The floating point number that a text denotes. -/
def float? (text : List Char) : Option Binary64 :=
  let (negative, body) := splitSign (trimNumeral text)
  let word := String.ofList (body.map Char.toLower)
  if word = "inf" || word = "infinity" then some (.infinite negative)
  else if word = "nan" then some .nan
  else decimal? negative body

end CallReach.Decimal
