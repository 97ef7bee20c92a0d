import CallReach.Decimal.Binary64
import CallReach.Text.Digit

/-!
# Shortest decimals

The decimal with the fewest digits that reads back as a given number; of two
such decimals, the nearer one.  On each decimal grid only the two neighbours of
the value have to be tried.  `Binary64.text` lays the digits out: positional
notation for exponents from -4 to 15, with `.0` after an integer, and an
exponent of at least two digits otherwise.
-/

namespace CallReach.Decimal

open Text

/-- A positive decimal `digits * 10 ^ exponent`. -/
structure Scientific where
  digits : Nat
  exponent : Int
deriving DecidableEq, Repr

/-- The decimal without its trailing zeros. -/
def Scientific.strip (fuel : Nat) (d : Scientific) : Scientific :=
  match fuel with
  | 0 => d
  | fuel + 1 =>
      if d.digits % 10 = 0 ∧ d.digits ≠ 0 then strip fuel ⟨d.digits / 10, d.exponent + 1⟩ else d

/-- The positive number `mantissa * 2 ^ exponent` as a fraction. -/
def fraction (mantissa : Nat) (exponent : Int) : Nat × Nat :=
  if exponent < 0 then (mantissa, Nat.pow 2 exponent.natAbs)
  else (mantissa * Nat.pow 2 exponent.toNat, 1)

/-- The fraction `num / den` divided by `10 ^ exponent`. -/
def scaleDownTen (num den : Nat) (exponent : Int) : Nat × Nat :=
  if exponent < 0 then (num * Nat.pow 10 exponent.natAbs, den)
  else (num, den * Nat.pow 10 exponent.toNat)

/-- The least `p` for which a positive fraction is below `10 ^ p`, searched
upwards from `start`. -/
def magnitudeFrom (fuel : Nat) (num den : Nat) (start : Int) : Int :=
  match fuel with
  | 0 => start
  | fuel + 1 =>
      let (scaledNum, scaledDen) := scaleDownTen num den start
      if scaledNum < scaledDen then start else magnitudeFrom fuel num den (start + 1)

/-- The least `p` for which a positive fraction is below `10 ^ p`. -/
def magnitude (num den : Nat) : Int :=
  let bits : Int := (num.log2 : Int) - (den.log2 : Int)
  magnitudeFrom 5 num den (bits * 30103 / 100000 - 1)

/-- The neighbour of the value on one decimal grid that reads back as the
number, the nearer of the two when both do. -/
def onGrid? (mantissa : Nat) (exponent step : Int) : Option Scientific :=
  let (num, den) := fraction mantissa exponent
  let (scaledNum, scaledDen) := scaleDownTen num den step
  let below := scaledNum / scaledDen
  let readsBack (digits : Nat) : Bool :=
    digits ≠ 0 && Binary64.ofDecimal false digits step == .finite false mantissa exponent
  let twice := 2 * (scaledNum % scaledDen)
  let nearer := twice < scaledDen ∨ (twice = scaledDen ∧ below % 2 = 0)
  match readsBack below, readsBack (below + 1) with
  | true, true => some ⟨if nearer then below else below + 1, step⟩
  | true, false => some ⟨below, step⟩
  | false, true => some ⟨below + 1, step⟩
  | false, false => none

/-- The shortest decimal of a positive number; seventeen digits are always
enough. -/
def shortest (mantissa : Nat) (exponent : Int) : Scientific :=
  let (num, den) := fraction mantissa exponent
  let top := magnitude num den
  let grids := (List.range 17).map fun k => top - (k + 1 : Nat)
  let found := (grids.findSome? (onGrid? mantissa exponent)).getD ⟨mantissa, exponent⟩
  found.strip 20

/-- The digits of a positive decimal in positional or exponent notation. -/
def Scientific.layout (d : Scientific) : List Char :=
  let digits := Nat.toDigits 10 d.digits
  let point : Int := digits.length + d.exponent
  if -4 < point ∧ point ≤ 16 then
    if point ≤ 0 then
      ['0', '.'] ++ List.replicate point.natAbs '0' ++ digits
    else if (digits.length : Int) ≤ point then
      digits ++ List.replicate d.exponent.toNat '0' ++ ['.', '0']
    else
      digits.take point.toNat ++ ['.'] ++ digits.drop point.toNat
  else
    let power := point - 1
    let mark := if power < 0 then '-' else '+'
    let fractional := match digits.drop 1 with
      | [] => []
      | rest => '.' :: rest
    digits.take 1 ++ fractional ++ ['e', mark] ++ padDigits 10 2 power.natAbs

/-- The text of a number. -/
def Binary64.text : Binary64 → String
  | .nan => "nan"
  | .infinite negative => if negative then "-inf" else "inf"
  | .finite negative mantissa exponent =>
      let body := if mantissa = 0 then ['0', '.', '0'] else (shortest mantissa exponent).layout
      String.ofList (if negative then '-' :: body else body)

end CallReach.Decimal
