/-
  Binary floating-point numbers, exactly.

  A format has a unit, the distance between its smallest neighbours, and every finite
  number of the format is a whole number of units.  So a finite number is a sign and a
  natural number, an operation is the exact operation on natural numbers, and rounding is
  division to the nearest multiple of the spacing, a tie going to the even multiple.

  * `Format.round` rounds a quotient of natural numbers to the grid of a format;
  * `Format.Fits` says which numbers of units are numbers of the format;
  * `Binary f` has zeros of both signs, the infinities and one number that is none (`nan`),
    with which nothing compares;
  * `Single` and `Double` are the formats of 24 and 53 significant bits.
-/

namespace Reasoning

/-! ## Formats -/

/-- A binary format: numbers of `precision` significant bits in units of `2 ^ -scale`, below
    `2 ^ top` units. -/
structure Format where
  precision : Nat
  scale : Nat
  top : Nat
  deriving DecidableEq

/-- The number of binary digits of `n`. -/
def bitLength (n : Nat) : Nat := if n = 0 then 0 else n.log2 + 1

/-- The whole number nearest to `num / den`, the even one of two that are equally near. -/
def divNearest (num den : Nat) : Nat :=
  let q := num / den
  let r := num % den
  if 2 * r < den then q
  else if den < 2 * r then q + 1
  else if q % 2 = 0 then q else q + 1

namespace Format

/-- 24 significant bits. -/
def single : Format := ⟨24, 149, 277⟩

/-- 53 significant bits. -/
def double : Format := ⟨53, 1074, 2098⟩

/-- One, in units. -/
def one (f : Format) : Nat := Nat.pow 2 f.scale

/-- The distance in units between neighbouring numbers of the size of `n` units. -/
def spacing (f : Format) (n : Nat) : Nat := Nat.pow 2 (bitLength n - f.precision)

/-- `n` units are a number of the format. -/
def Fits (f : Format) (n : Nat) : Prop := n < Nat.pow 2 f.top ∧ n % f.spacing n = 0

instance (f : Format) (n : Nat) : Decidable (f.Fits n) := by unfold Fits; infer_instance

theorem fits_zero (f : Format) : f.Fits 0 := ⟨Nat.two_pow_pos _, Nat.zero_mod _⟩

/-- The multiple of the spacing nearest to `num / den` units. -/
def round (f : Format) (num den : Nat) : Nat :=
  let s := f.spacing (num / den)
  s * divNearest num (den * s)

end Format

/-! ## Numbers -/

/-- A number of the format `f`. -/
inductive Binary (f : Format) where
  /-- The result of an operation that has none. -/
  | nan
  | infinite (negative : Bool)
  /-- So many units, with a sign that zero has as well. -/
  | finite (negative : Bool) (units : Nat) (fits : f.Fits units)
  deriving DecidableEq

abbrev Single := Binary .single

abbrev Double := Binary .double

namespace Binary

variable {f : Format}

/-- `num / den` units, rounded; infinite if that is too large for the format. -/
def ofRatio (negative : Bool) (num den : Nat) : Binary f :=
  let n := f.round num den
  if h : f.Fits n then finite negative n h else infinite negative

def zero (negative : Bool) : Binary f := finite negative 0 f.fits_zero

def ofNat (n : Nat) : Binary f := ofRatio false (n * f.one) 1

def ofInt (n : Int) : Binary f := ofRatio (n < 0) (n.natAbs * f.one) 1

/-- `m * 10 ^ e`, or `m * 10 ^ -e` if `down`. -/
def ofDecimal (m : Nat) (down : Bool) (e : Nat) : Binary f :=
  if down then ofRatio false (m * f.one) (Nat.pow 10 e)
  else ofRatio false (m * Nat.pow 10 e * f.one) 1

instance (n : Nat) : OfNat (Binary f) n := ⟨ofNat n⟩

instance : OfScientific (Binary f) := ⟨ofDecimal⟩

instance : Inhabited (Binary f) := ⟨0⟩

/-- The units of a finite number with their sign. -/
def signed (negative : Bool) (units : Nat) : Int := if negative then -units else units

def isNaN : Binary f → Bool
  | nan => true
  | _ => false

def isFinite : Binary f → Bool
  | finite .. => true
  | _ => false

/-- The sign of the number; a `nan` has none. -/
def isNegative : Binary f → Bool
  | nan => false
  | infinite s | finite s .. => s

/-! ## Arithmetic -/

def neg : Binary f → Binary f
  | nan => nan
  | infinite s => infinite !s
  | finite s n h => finite (!s) n h

/-- The sum.  A sum that is zero is positive unless both numbers are negative. -/
def add : Binary f → Binary f → Binary f
  | nan, _ | _, nan => nan
  | infinite a, infinite b => if a = b then infinite a else nan
  | infinite a, finite .. => infinite a
  | finite .., infinite b => infinite b
  | finite a m _, finite b n _ =>
    let s := signed a m + signed b n
    if s = 0 then zero (a && b) else ofRatio (s < 0) s.natAbs 1

def sub (x y : Binary f) : Binary f := add x (neg y)

def mul : Binary f → Binary f → Binary f
  | nan, _ | _, nan => nan
  | infinite a, infinite b => infinite (a ^^ b)
  | infinite a, finite b n _ | finite b n _, infinite a =>
    if n = 0 then nan else infinite (a ^^ b)
  | finite a m _, finite b n _ => ofRatio (a ^^ b) (m * n) f.one

def div : Binary f → Binary f → Binary f
  | nan, _ | _, nan => nan
  | infinite _, infinite _ => nan
  | infinite a, finite b _ _ => infinite (a ^^ b)
  | finite a _ _, infinite b => zero (a ^^ b)
  | finite a m _, finite b n _ =>
    if n = 0 then (if m = 0 then nan else infinite (a ^^ b))
    else ofRatio (a ^^ b) (m * f.one) n

/-- The remainder of the quotient that is cut to a whole number; it has the sign of `x`. -/
def rem : Binary f → Binary f → Binary f
  | nan, _ | _, nan | infinite _, _ => nan
  | x, infinite _ => x
  | finite a m _, finite _ n _ => if n = 0 then nan else ofRatio a (m % n) 1

/-- Adds a binary digit to a root unless its square then exceeds `n`. -/
def rootDigit (n i low : Nat) : Nat :=
  let high := low + Nat.pow 2 i
  if high * high ≤ n then high else low

/-- The whole part of a square root, from its highest binary digit down. -/
def wholeRoot (n : Nat) : Nat := (List.range (bitLength n / 2 + 1)).foldr (rootDigit n) 0

/-- The square root.  It is taken to half a unit; a root strictly between two halves is
    rounded as the middle of the two, which lies on the same side of every tie. -/
def sqrt : Binary f → Binary f
  | nan => nan
  | infinite s => if s then nan else infinite s
  | finite s n h =>
    if n = 0 then finite s n h
    else if s then nan
    else
      let square := 4 * (n * f.one)
      let r := wholeRoot square
      ofRatio false (if r * r = square then 2 * r else 2 * r + 1) 4

instance : Neg (Binary f) := ⟨neg⟩
instance : Add (Binary f) := ⟨add⟩
instance : Sub (Binary f) := ⟨sub⟩
instance : Mul (Binary f) := ⟨mul⟩
instance : Div (Binary f) := ⟨div⟩

/-! ## Comparison -/

/-- How two numbers compare: the zeros are equal, and `nan` compares with nothing. -/
def order : Binary f → Binary f → Option Ordering
  | nan, _ | _, nan => none
  | infinite a, infinite b => some (if a = b then .eq else if a then .lt else .gt)
  | infinite a, finite .. => some (if a then .lt else .gt)
  | finite .., infinite b => some (if b then .gt else .lt)
  | finite a m _, finite b n _ => some (compare (signed a m) (signed b n))

def lt (x y : Binary f) : Bool := order x y == some .lt

def le (x y : Binary f) : Bool := order x y == some .lt || order x y == some .eq

/-- Equal as numbers: zeros of both signs are, and `nan` is not equal to itself. -/
def same (x y : Binary f) : Bool := order x y == some .eq

instance : LT (Binary f) := ⟨fun x y => lt x y = true⟩
instance : LE (Binary f) := ⟨fun x y => le x y = true⟩

instance (x y : Binary f) : Decidable (x < y) := inferInstanceAs (Decidable (lt x y = true))
instance (x y : Binary f) : Decidable (x ≤ y) := inferInstanceAs (Decidable (le x y = true))

/-- The larger number, the first if neither is larger. -/
def larger (x y : Binary f) : Binary f := if x < y then y else x

/-- The smaller number, the first if neither is smaller. -/
def smaller (x y : Binary f) : Binary f := if y < x then y else x

/-- The nearest number between two bounds. -/
def clamp (x low high : Binary f) : Binary f :=
  if x < low then low else if high < x then high else x

def abs : Binary f → Binary f
  | nan => nan
  | infinite _ => infinite false
  | finite _ n h => finite false n h

/-! ## Conversion -/

/-- The same number in another format, rounded. -/
def convert {g : Format} : Binary f → Binary g
  | nan => nan
  | infinite s => infinite s
  | finite s n _ => ofRatio s (n * g.one) f.one

/-- The whole number that is left when the places after the point are cut; zero for a
    number that is not finite. -/
def truncate : Binary f → Int
  | finite s n _ => signed s (n / f.one)
  | _ => 0

end Binary

end Reasoning
