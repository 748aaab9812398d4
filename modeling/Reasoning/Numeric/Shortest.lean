/-
  The shortest decimal that reads back.

  Of the decimals that round to a number, `Binary.shortest` takes one with the fewest
  digits, and of these the one nearest to the number.  `Binary.positional` lays the digits
  out: with a point among zeros while the number has at most 15 digits in front of the point
  and at most 3 zeros behind it, else with an exponent of at least two digits.
-/
import Reasoning.Numeric.Binary
import Reasoning.Text.Basic

namespace Reasoning

/-- `digits * 10 ^ exponent`. -/
structure Decimal where
  digits : Nat
  exponent : Int
  deriving Repr, DecidableEq

namespace Decimal

/-- The positive number of the format nearest to the decimal. -/
def toBinary (d : Decimal) (f : Format) : Binary f :=
  Binary.ofDecimal d.digits (d.exponent < 0) d.exponent.natAbs

/-- The count of decimal digits. -/
def length (d : Decimal) : Nat := (Text.ofNat d.digits).length

/-- Moves zeros at the end of the digits into the exponent, up to so many. -/
def stripUpTo (d : Decimal) : Nat → Decimal
  | 0 => d
  | n + 1 =>
    if d.digits != 0 && d.digits % 10 == 0 then stripUpTo ⟨d.digits / 10, d.exponent + 1⟩ n
    else d

/-- Moves all zeros at the end of the digits into the exponent. -/
def strip (d : Decimal) : Decimal := d.stripUpTo d.length

end Decimal

namespace Binary

variable {f : Format}

/-- The neighbours of `units` on the grid of `10 ^ e` that read back as `units`, the nearer
    one first. -/
def onGrid (units : Nat) (fits : f.Fits units) (e : Int) : List Decimal :=
  let num := if e < 0 then units * Nat.pow 10 e.natAbs else units
  let den := if e < 0 then f.one else f.one * Nat.pow 10 e.natAbs
  let low := num / den
  let near := divNearest num den
  let far := if near = low then low + 1 else low
  ([near, far].map fun d => Decimal.mk d e).filter fun d =>
    d.digits != 0 && d.toBinary f == finite false units fits

/-- The least `k` with the number below `10 ^ k`. -/
def magnitude (f : Format) (units : Nat) : Int :=
  (Text.ofNat (units * Nat.pow 10 f.scale / f.one)).length - f.scale

/-- The decimal with the fewest digits that reads back; seventeen digits are always enough
    for the formats in use. -/
def shortest (units : Nat) (fits : f.Fits units) : Decimal :=
  let k := magnitude f units
  let places (i : Nat) : Option Decimal := (onGrid units fits (k - (i + 1 : Int))).head?
  match (List.range 17).findSome? places with
  | some d => d.strip
  | none => ⟨units, 0⟩

/-- Lays the digits of a decimal out. -/
def layout (d : Decimal) : Text :=
  let digits := Text.ofNat d.digits
  let count := digits.length
  let point : Int := count + d.exponent
  let zeros (n : Nat) : Text := List.replicate n '0'.toUInt8
  if 0 ≤ d.exponent ∧ point ≤ 15 then digits ++ zeros d.exponent.natAbs ++ Text.ofString ".0"
  else if 0 < point ∧ point ≤ 15 then
    digits.take point.natAbs ++ Text.ofString "." ++ digits.drop point.natAbs
  else if -4 < point ∧ point ≤ 0 then
    Text.ofString "0." ++ zeros point.natAbs ++ digits
  else
    let e := point - 1
    let size := Text.ofNat e.natAbs
    let fraction := if count = 1 then [] else Text.ofString "." ++ digits.drop 1
    digits.take 1 ++ fraction ++ Text.ofString (if e < 0 then "e-" else "e+") ++
      zeros (2 - size.length) ++ size

/-- The text of a finite number that reads back as it; numbers that are not finite have no
    such text. -/
def shortestText? : Binary f → Option Text
  | finite s n h =>
    let t := if n = 0 then Text.ofString "0.0" else layout (shortest n h)
    some (if s then '-'.toUInt8 :: t else t)
  | _ => none

end Binary

end Reasoning
