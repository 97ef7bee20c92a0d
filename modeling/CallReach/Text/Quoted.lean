import CallReach.Text.Digit
import CallReach.Text.Printable

/-!
# Quoted text

How messages show a text: between quotes, with everything that is not
printable written as an escape.  Single quotes are used unless the text has a
single quote and no double quote.
-/

namespace CallReach.Text

/-- The quote that surrounds a text. -/
def quoteFor (text : List Char) : Char :=
  if text.contains '\x27' && !text.contains '\x22' then '\x22' else '\x27'

/-- One character inside quotes of the given kind. -/
def escapeChar (quote c : Char) : List Char :=
  if c = '\x5c' || c = quote then ['\x5c', c]
  else if c = '\n' then ['\x5c', 'n']
  else if c = '\r' then ['\x5c', 'r']
  else if c = '\t' then ['\x5c', 't']
  else if isPrintable c then [c]
  else if c.toNat < 0x100 then '\x5c' :: 'x' :: padDigits 16 2 c.toNat
  else if c.toNat < 0x10000 then '\x5c' :: 'u' :: padDigits 16 4 c.toNat
  else '\x5c' :: 'U' :: padDigits 16 8 c.toNat

/-- A text between quotes. -/
def quotedChars (text : List Char) : List Char :=
  let quote := quoteFor text
  quote :: text.flatMap (escapeChar quote) ++ [quote]

/-- A text between quotes, as messages show it. -/
def quoted (text : String) : String :=
  String.ofList (quotedChars text.toList)

end CallReach.Text
