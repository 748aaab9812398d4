/-
  Texts as byte strings.

  A text is the list of its bytes.  Lengths, offsets and cuts count bytes, and the
  classes of bytes (letters, digits, space) know ASCII only, so the bytes of a
  multi-byte symbol belong to no class and pass through every function untouched.

  * `Byte.isAlnum`, `Byte.isSpace`, `Byte.isWord`: the classes;
  * `Text.lower`, `Text.trim`: case folding and cutting of surrounding space;
  * `Text.before`: the order of texts by their bytes, in which tables are kept;
  * `Text.join`, `Text.splitWhere`: concatenation with a separator, cutting at bytes.
-/

namespace Reasoning

/-! ## Bytes -/

namespace Byte

/-- `A` to `Z`. -/
def isUpper (b : UInt8) : Bool := 'A'.toUInt8 ≤ b && b ≤ 'Z'.toUInt8

/-- `a` to `z`. -/
def isLower (b : UInt8) : Bool := 'a'.toUInt8 ≤ b && b ≤ 'z'.toUInt8

/-- `0` to `9`. -/
def isDigit (b : UInt8) : Bool := '0'.toUInt8 ≤ b && b ≤ '9'.toUInt8

def isAlpha (b : UInt8) : Bool := isUpper b || isLower b

def isAlnum (b : UInt8) : Bool := isAlpha b || isDigit b

/-- Space, tab, line feed, vertical tab, form feed and carriage return. -/
def isSpace (b : UInt8) : Bool := b == ' '.toUInt8 || (9 ≤ b && b ≤ 13)

/-- The bytes that words are made of: letters, digits, underscore and apostrophe. -/
def isWord (b : UInt8) : Bool := isAlnum b || b == '_'.toUInt8 || b == '\''.toUInt8

/-- A capital letter becomes small; every other byte stays. -/
def lower (b : UInt8) : UInt8 := if isUpper b then b + 32 else b

/-- The value of a decimal digit. -/
def digitValue (b : UInt8) : Nat := b.toNat - '0'.toNat

/-- The value of a hexadecimal digit of either case. -/
def hexValue? (b : UInt8) : Option Nat :=
  if isDigit b then some (digitValue b)
  else if 'a'.toUInt8 ≤ b && b ≤ 'f'.toUInt8 then some (b.toNat - 'a'.toNat + 10)
  else if 'A'.toUInt8 ≤ b && b ≤ 'F'.toUInt8 then some (b.toNat - 'A'.toNat + 10)
  else none

/-- What is said of all bytes is decided by trying the 256 of them. -/
instance decidableForall {p : UInt8 → Prop} [DecidablePred p] : Decidable (∀ b, p b) :=
  decidable_of_iff (∀ n : Fin 256, p (.ofFin n)) ⟨fun h b => h b.toFin, fun h n => h (.ofFin n)⟩

end Byte

/-! ## Texts -/

/-- A byte string. -/
abbrev Text := List UInt8

namespace Text

/-- The UTF-8 bytes of a string. -/
def ofString (s : String) : Text := s.toUTF8.data.toList

instance : Coe String Text := ⟨ofString⟩

/-- A list of texts from strings. -/
def ofStrings (ss : List String) : List Text := ss.map ofString

/-- Reads the bytes as UTF-8; bytes that are not valid UTF-8 give nothing. -/
def toString? (t : Text) : Option String := String.fromUTF8? ⟨t.toArray⟩

/-- Capital ASCII letters become small. -/
def lower (t : Text) : Text := t.map Byte.lower

/-- Cuts the space at both ends. -/
def trim (t : Text) : Text :=
  ((t.dropWhile Byte.isSpace).reverse.dropWhile Byte.isSpace).reverse

def hasAlnum (t : Text) : Bool := t.any Byte.isAlnum

/-- Strict order by bytes; a proper beginning comes before what extends it. -/
def before : Text → Text → Bool
  | [], [] => false
  | [], _ :: _ => true
  | _ :: _, [] => false
  | a :: s, b :: t => a.toNat < b.toNat || (a == b && before s t)

/-- The parts with `sep` between neighbours. -/
def join (sep : Text) : List Text → Text
  | [] => []
  | [t] => t
  | t :: ts => t ++ sep ++ join sep ts

theorem join_cons_cons (s t u : Text) (ts : List Text) :
    join s (t :: u :: ts) = t ++ s ++ join s (u :: ts) := rfl

theorem join_singleton (s t : Text) : join s [t] = t := rfl

/-- The pieces between bytes that satisfy `sep`; always at least one piece. -/
def splitWhere (sep : UInt8 → Bool) : Text → List Text
  | [] => [[]]
  | b :: t =>
    if sep b then [] :: splitWhere sep t
    else match splitWhere sep t with
      | [] => [[b]]
      | p :: ps => (b :: p) :: ps

/-- The decimal digits of a number. -/
def ofNat (n : Nat) : Text := ofString (toString n)

end Text

end Reasoning
