/-
  Arithmetic that a calculation of scores needs.

  Calculations that are also looked at with exact numbers are written over `Scalar`: they
  run in single precision, and the rational numbers follow the same steps without rounding.
-/
import Reasoning.Numeric.Binary

namespace Reasoning

/-- Numbers that scores are calculated with. -/
class Scalar (α : Type) extends Add α, Sub α, Mul α, Div α where
  ofNat : Nat → α
  /-- Strictly less. -/
  less : α → α → Bool
  /-- The result of an operation that has none. -/
  undefined : α → Bool

instance : Scalar Single where
  ofNat := Binary.ofNat
  less := Binary.lt
  undefined := Binary.isNaN

instance : Scalar Rat where
  ofNat n := n
  less x y := decide (x < y)
  undefined _ := false

namespace Scalar

variable {α : Type} [Scalar α]

def zero : α := ofNat 0

def one : α := ofNat 1

def half : α := ofNat 1 / ofNat 2

/-- The larger number, the first if neither is larger. -/
def larger (x y : α) : α := if less x y then y else x

/-- The smaller number, the first if neither is smaller. -/
def smaller (x y : α) : α := if less y x then y else x

/-- The nearest number from zero to one. -/
def clamp (x : α) : α :=
  if undefined x then zero
  else if less x zero then zero
  else if less one x then one
  else x

/-- The sum in the order of the list. -/
def sum (xs : List α) : α := xs.foldl (· + ·) zero

end Scalar

end Reasoning
