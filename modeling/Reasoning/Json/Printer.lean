/-
  Writing JSON.

  A value is written on one line without space, the members of an object in the order of
  their keys.  Bytes below space, quotes and backslashes are escaped, everything else
  stands as it is; a string that is not valid UTF-8 cannot be written.  Real numbers are
  written with the fewest digits that read back, numbers that are not finite as `null`.
-/
import Reasoning.Json.Basic
import Reasoning.Numeric.Shortest
import Reasoning.Text.Utf8

namespace Reasoning.Json

/-- The hexadecimal digit of a number below sixteen. -/
def hexDigit (n : Nat) : UInt8 :=
  if n < 10 then (n + '0'.toNat).toUInt8 else (n - 10 + 'a'.toNat).toUInt8

/-- How a byte is written inside quotes. -/
def escape (b : UInt8) : Text :=
  if b == '"'.toUInt8 then "\\\""
  else if b == '\\'.toUInt8 then "\\\\"
  else if b == 8 then "\\b"
  else if b == 9 then "\\t"
  else if b == 10 then "\\n"
  else if b == 12 then "\\f"
  else if b == 13 then "\\r"
  else if b < 0x20 then
    Text.ofString "\\u00" ++ [hexDigit (b.toNat / 16), hexDigit (b.toNat % 16)]
  else [b]

/-- The text in quotes, if it is valid UTF-8. -/
def quote? (s : Text) : Option Text :=
  if s.isUtf8 then some ('"'.toUInt8 :: s.flatMap escape ++ ['"'.toUInt8]) else none

/-- The text of a real number. -/
def printReal (x : Double) : Text := x.shortestText?.getD "null"

mutual

/-- The text of a value; none if a string in it is not valid UTF-8. -/
def print? : Json → Option Text
  | null => some "null"
  | bool b => some (if b then "true" else "false")
  | int n => some (Text.ofString (toString n))
  | real x => some (printReal x)
  | string s => quote? s
  | array es => do
    let ts ← printAll? es
    some ('['.toUInt8 :: Text.join "," ts ++ [']'.toUInt8])
  | object ms => do
    let ts ← printMembers? ms
    some ('\x7b'.toUInt8 :: Text.join "," ts ++ ['\x7d'.toUInt8])

/-- The texts of the elements of an array. -/
def printAll? : List Json → Option (List Text)
  | [] => some []
  | e :: es => do
    let t ← print? e
    let ts ← printAll? es
    some (t :: ts)

/-- The texts of the members of an object. -/
def printMembers? : List (Text × Json) → Option (List Text)
  | [] => some []
  | (k, v) :: ms => do
    let q ← quote? k
    let t ← print? v
    let ts ← printMembers? ms
    some ((q ++ ':'.toUInt8 :: t) :: ts)

end

end Reasoning.Json
