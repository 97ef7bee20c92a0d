import CallReach.Text.Quoted

/-!
# Wide texts

An escape in a JSON string may denote one half of a surrogate pair, which is no
character.  A `Wide` text is a text of characters, or a `Torn` one, which has
such a half somewhere; so a torn text is never equal to a text of characters.
-/

namespace CallReach.Text

/-- A character, or a half of a surrogate pair. -/
inductive Piece where
  | char (c : Char)
  /-- The half whose unit lies this far above `0xD800`. -/
  | half (offset : Fin 0x800)
deriving DecidableEq, Repr

namespace Piece

/-- The code point of a piece. -/
def code : Piece → Nat
  | char c => c.toNat
  | half offset => 0xD800 + offset

/-- The piece of a code point. -/
def ofCode (n : Nat) : Piece :=
  if h : 0xD800 ≤ n ∧ n < 0xE000 then half ⟨n - 0xD800, by omega⟩ else char (Char.ofNat n)

/-- The character of a piece that is one. -/
def char? : Piece → Option Char
  | char c => some c
  | half _ => none

/-- A piece as a text shows it where a half is written as an escape. -/
def shown (ofChar : Char → List Char) : Piece → List Char
  | char c => ofChar c
  | half offset => '\x5c' :: 'u' :: padDigits 16 4 (0xD800 + offset)

end Piece

/-- A text with a half of a surrogate pair. -/
structure Torn where
  pieces : List Piece
  has_half : pieces.any (·.char?.isNone) = true
deriving DecidableEq, Repr

/-- A text of characters, or a torn one. -/
inductive Wide where
  | whole (text : String)
  | torn (text : Torn)
deriving DecidableEq, Repr

instance : Coe String Wide := ⟨.whole⟩

namespace Wide

/-- The text of pieces. -/
def ofPieces (pieces : List Piece) : Wide :=
  if h : pieces.any (·.char?.isNone) = true then torn ⟨pieces, h⟩
  else whole (String.ofList (pieces.filterMap (·.char?)))

/-- The pieces of a text. -/
def pieces : Wide → List Piece
  | whole text => text.toList.map .char
  | torn text => text.pieces

/-- A text as it is printed, with halves as escapes. -/
def shown : Wide → String
  | whole text => text
  | torn text => String.ofList (text.pieces.flatMap (Piece.shown fun c => [c]))

/-- A text between quotes, as messages show it. -/
def quoted : Wide → String
  | whole text => Text.quoted text
  | torn text =>
      let quote := quoteFor (text.pieces.filterMap (·.char?))
      String.ofList (quote :: text.pieces.flatMap (Piece.shown (escapeChar quote)) ++ [quote])

/-- The order of texts by their code points. -/
def le (a b : Wide) : Bool :=
  !(b.pieces.map Piece.code).lex (a.pieces.map Piece.code) Nat.blt

end Wide

end CallReach.Text
