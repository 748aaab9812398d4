/-
  Numbers with a fixed count of places after the point.

  The exact value is rounded to the nearest decimal of so many places, a tie going to the
  even digit.  A negative number keeps its sign even when all its digits are zeros.
-/
import Reasoning.Numeric.Binary
import Reasoning.Text.Basic

namespace Reasoning

/-- A natural number of units of `10 ^ -places`, with a point in front of the places. -/
def Text.ofScaled (places n : Nat) : Text :=
  let whole := Text.ofNat (n / Nat.pow 10 places)
  let part := Text.ofNat (n % Nat.pow 10 places)
  if places = 0 then whole
  else whole ++ (("." : Text) ++ (List.replicate (places - part.length) '0'.toUInt8 ++ part))

/-- The number with `places` digits after the point. -/
def Binary.fixed {f : Format} (places : Nat) : Binary f → Text
  | nan => "nan"
  | infinite s => if s then "-inf" else "inf"
  | finite s n _ =>
    let digits := Text.ofScaled places (divNearest (n * Nat.pow 10 places) f.one)
    if s then '-'.toUInt8 :: digits else digits

end Reasoning
