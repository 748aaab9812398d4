/-
  Numerals of floating-point numbers.

  A numeral is an optional sign and decimal or hexadecimal digits with an optional point
  and exponent.  Its exact value is `mantissa * base ^ exponent`, and `Numeral.toBinary`
  rounds that value to a format, so no digit is ever lost before the one rounding.

  * `Numeral.scan` reads the longest numeral a text starts with, as far as it goes;
  * `Numeral.isTiny`: the value lies so near to zero that the format has no full precision
    for it and cannot hold it exactly;
  * `Single.ofText?` reads a text that is one numeral of a number in range.
-/
import Reasoning.Numeric.Binary
import Reasoning.Text.Basic

namespace Reasoning

/-- A number as it is written: `mantissa * base ^ exponent` with a sign. -/
structure Numeral where
  negative : Bool
  mantissa : Nat
  base : Nat
  exponent : Int
  deriving Repr, DecidableEq

namespace Numeral

/-! ## Value -/

/-- Numerator and denominator of the size of the value. -/
def ratio (n : Numeral) : Nat × Nat :=
  if n.exponent < 0 then (n.mantissa, n.base.pow n.exponent.natAbs)
  else (n.mantissa * n.base.pow n.exponent.natAbs, 1)

/-- The number of the format that is nearest to the value. -/
def toBinary (n : Numeral) {f : Format} : Binary f :=
  let (num, den) := n.ratio
  Binary.ofRatio n.negative (num * f.one) den

/-- Whether the value lies below the numbers of full precision, also after rounding to that
    precision, and is not a number of the format. -/
def isTiny (n : Numeral) (f : Format) : Bool :=
  let num := n.ratio.1 * f.one
  let den := n.ratio.2
  num < Nat.pow 2 (f.precision - 1) * den && divNearest (2 * num) den < Nat.pow 2 f.precision &&
    num % den != 0

/-! ## Reading -/

/-- The number that a list of digits writes in a base. -/
def ofDigits (base : Nat) (ds : List Nat) : Nat := ds.foldl (fun n d => n * base + d) 0

/-- An exponent that outweighs `digits` digits and lies beyond every format, so that a larger
    one makes no difference. -/
def exponentLimit (digits : Nat) : Nat := 10000 + 4 * digits

/-- Reads `e` or `p`, an optional sign and digits; without a digit there is no exponent. -/
def scanExponent (mark : UInt8) (limit : Nat) (t : Text) : Int × Text :=
  match t with
  | b :: r =>
    if Byte.lower b != mark then (0, t)
    else
      let (negative, r) := match r with
        | c :: r' =>
          if c == '-'.toUInt8 then (true, r') else if c == '+'.toUInt8 then (false, r')
          else (false, r)
        | [] => (false, r)
      let ds := r.takeWhile Byte.isDigit
      if ds.isEmpty then (0, t)
      else
        let e : Int := min limit (ofDigits 10 (ds.map Byte.digitValue))
        (if negative then -e else e, r.dropWhile Byte.isDigit)
  | [] => (0, t)

/-- Reads digits with an optional point among them and an exponent.  Needs one digit. -/
def scanDigits (base : Nat) (isDigit : UInt8 → Bool) (value : UInt8 → Nat) (mark : UInt8)
    (weight : Nat) (negative : Bool) (t : Text) : Option (Numeral × Text) :=
  let whole := t.takeWhile isDigit
  let (part, r) := match t.dropWhile isDigit with
    | b :: r => if b == '.'.toUInt8 then (r.takeWhile isDigit, r.dropWhile isDigit)
                else ([], b :: r)
    | [] => ([], [])
  if whole.isEmpty && part.isEmpty then none
  else
    let (e, r) := scanExponent mark (exponentLimit (whole.length + part.length)) r
    let mantissa := ofDigits base ((whole ++ part).map value)
    let places := part.length * weight
    some (⟨negative, mantissa, if base = 10 then 10 else 2, e - places⟩, r)

/-- Reads the sign of a numeral. -/
def scanSign : Text → Bool × Text
  | [] => (false, [])
  | b :: t =>
    if b == '-'.toUInt8 then (true, t) else if b == '+'.toUInt8 then (false, t)
    else (false, b :: t)

def scanDecimal (negative : Bool) (t : Text) : Option (Numeral × Text) :=
  scanDigits 10 Byte.isDigit Byte.digitValue 'e'.toUInt8 1 negative t

/-- Reads the digits behind `0x`; each stands for four binary places. -/
def scanHex (negative : Bool) (t : Text) : Option (Numeral × Text) :=
  scanDigits 16 (fun b => (Byte.hexValue? b).isSome) (fun b => (Byte.hexValue? b).getD 0)
    'p'.toUInt8 4 negative t

/-- Reads the longest numeral a text starts with; `0x` without a digit is the numeral `0`. -/
def scan (t : Text) : Option (Numeral × Text) :=
  let (negative, t) := scanSign t
  match t with
  | z :: x :: r =>
    if z == '0'.toUInt8 && Byte.lower x == 'x'.toUInt8 then
      (scanHex negative r).orElse fun _ => scanDecimal negative t
    else scanDecimal negative t
  | _ => scanDecimal negative t

end Numeral

/-- Reads a text that is one numeral between space, of a number that is neither too large
    for the format nor lost in its smallest numbers. -/
def Single.ofText? (t : Text) : Option Single := do
  let (n, rest) ← Numeral.scan t.trim
  let x : Single := n.toBinary
  if rest.isEmpty && x.isFinite && !n.isTiny .single then some x else none

end Reasoning
