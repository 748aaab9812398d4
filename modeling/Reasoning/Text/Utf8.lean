/-
  UTF-8.

  `Utf8.size?` gives the size of the symbol a text starts with, by the ranges of the
  bytes that may begin and follow: no over-long form, no surrogate, nothing above the last
  code point.  `Text.isUtf8` says that a text is a sequence of symbols.
-/
import Reasoning.Text.Basic

namespace Reasoning

namespace Utf8

/-- A byte that continues a symbol. -/
def isTail (b : UInt8) : Bool := 0x80 ≤ b && b ≤ 0xBF

/-- The bytes that may stand second in a symbol of two or more. -/
def isSecond (first second : UInt8) : Bool :=
  if first == 0xE0 then 0xA0 ≤ second && second ≤ 0xBF
  else if first == 0xED then 0x80 ≤ second && second ≤ 0x9F
  else if first == 0xF0 then 0x90 ≤ second && second ≤ 0xBF
  else if first == 0xF4 then 0x80 ≤ second && second ≤ 0x8F
  else isTail second

/-- The number of bytes of the symbol that a text starts with. -/
def size? : Text → Option Nat
  | [] => none
  | a :: t =>
    if a < 0x80 then some 1
    else match t with
      | [] => none
      | b :: t =>
        if 0xC2 ≤ a && a ≤ 0xDF then (if isTail b then some 2 else none)
        else if !isSecond a b then none
        else match t with
          | [] => none
          | c :: t =>
            if 0xE0 ≤ a && a ≤ 0xEF then (if isTail c then some 3 else none)
            else match t with
              | [] => none
              | d :: _ =>
                if 0xF0 ≤ a && a ≤ 0xF4 && isTail c && isTail d then some 4 else none

/-- The bytes of a code point. -/
def encode (n : Nat) : Text :=
  if n < 0x80 then [n.toUInt8]
  else if n < 0x800 then [(0xC0 + n / 0x40).toUInt8, (0x80 + n % 0x40).toUInt8]
  else if n < 0x10000 then
    [(0xE0 + n / 0x1000).toUInt8, (0x80 + n / 0x40 % 0x40).toUInt8, (0x80 + n % 0x40).toUInt8]
  else
    [(0xF0 + n / 0x40000).toUInt8, (0x80 + n / 0x1000 % 0x40).toUInt8,
      (0x80 + n / 0x40 % 0x40).toUInt8, (0x80 + n % 0x40).toUInt8]

end Utf8

/-- `isUtf8`, with the number of bytes of the last symbol that are still to be passed. -/
def Text.isUtf8From : Nat → Text → Bool
  | _, [] => true
  | skip + 1, _ :: t => isUtf8From skip t
  | 0, b :: t =>
    match Utf8.size? (b :: t) with
    | some n => isUtf8From (n - 1) t
    | none => false

/-- The text is valid UTF-8. -/
def Text.isUtf8 (t : Text) : Bool := isUtf8From 0 t

end Reasoning
