/-
  JSON values.

  Numbers are whole numbers of 64 bits, signed or unsigned, or binary numbers of double
  precision.  Strings are byte strings.  The members of an object are kept in the order of
  their keys.

  The accessors read a value as something else only where the kinds agree: a number as a
  binary number of either format, a truth value as zero or one, and nothing else.
-/
import Reasoning.Dict
import Reasoning.Numeric.Binary

namespace Reasoning

inductive Json where
  | null
  | bool (b : Bool)
  | int (n : Int)
  | real (x : Double)
  | string (s : Text)
  | array (elements : List Json)
  | object (members : List (Text × Json))

namespace Json

instance : Inhabited Json := ⟨null⟩

/-! ## Building -/

/-- An object from its members in any order. -/
def ofMembers (members : List (String × Json)) : Json :=
  object (Dict.ofList (members.map fun m => (Text.ofString m.1, m.2)))

def ofText (s : Text) : Json := string s

def ofTexts (ss : List Text) : Json := array (ss.map string)

def ofNat (n : Nat) : Json := int n

/-- A number of single precision, exactly. -/
def ofSingle (x : Single) : Json := real x.convert

/-- An object from a table. -/
def ofDict {ν : Type} (g : ν → Json) (d : Dict ν) : Json := object (d.mapValues g)

/-- `null` for nothing. -/
def ofOption {α : Type} (g : α → Json) : Option α → Json
  | none => null
  | some a => g a

/-! ## Reading -/

def isNumber : Json → Bool
  | int _ | real _ => true
  | _ => false

def isObject : Json → Bool
  | object _ => true
  | _ => false

/-- The member of an object. -/
def member? (j : Json) (key : Text) : Option Json :=
  match j with
  | object ms => Dict.get? ms key
  | _ => none

/-- A number in single precision. -/
def number? : Json → Option Single
  | int n => some (.ofInt n)
  | real x => some x.convert
  | _ => none

/-- A number in single precision, where truth values count as zero and one. -/
def single? : Json → Option Single
  | bool b => some (if b then 1 else 0)
  | j => j.number?

def bool? : Json → Option Bool
  | bool b => some b
  | _ => none

/-- A count: a whole number modulo `2 ^ 64`, or a real number without its fraction. -/
def count? : Json → Option Nat
  | int n => some (n % UInt64.size).toNat
  | real x => some x.truncate.toNat
  | _ => none

def text? : Json → Option Text
  | string s => some s
  | _ => none

/-- The elements of an array. -/
def elements? : Json → Option (List Json)
  | array es => some es
  | _ => none

/-! ## Fields with a fallback

A field that is missing, null or of another kind is read as the fallback. -/

def textField (j : Json) (key : Text) (fallback : Text) : Text :=
  ((j.member? key).bind text?).getD fallback

/-- A finite number; others are read as the fallback too. -/
def numberField (j : Json) (key : Text) (fallback : Single) : Single :=
  match (j.member? key).bind number? with
  | some x => if x.isFinite then x else fallback
  | none => fallback

/-- A number, finite or not. -/
def anyNumberField (j : Json) (key : Text) (fallback : Single) : Single :=
  ((j.member? key).bind number?).getD fallback

def arrayField? (j : Json) (key : Text) : Option (List Json) :=
  (j.member? key).bind elements?

/-- The elements of an array, none if there is no array. -/
def listField (j : Json) (key : Text) : List Json := (j.arrayField? key).getD []

/-- The texts among the elements of an array. -/
def textsField (j : Json) (key : Text) : List Text := (j.listField key).filterMap text?

def boolField (j : Json) (key : Text) : Bool := ((j.member? key).bind bool?).getD false

/-- The members of an object. -/
def members : Json → Dict Json
  | object ms => ms
  | _ => []

/-- The members of a field that is an object, each read by `read`. -/
def dictField {α : Type} (j : Json) (key : Text) (read : Json → α) : Dict α :=
  Dict.mapValues read (((j.member? key).getD null).members)

/-- A number, zero for anything else. -/
def numberOrZero (j : Json) : Single := j.number?.getD 0

/-- The texts of an array. -/
def texts (j : Json) : List Text := (j.elements?.getD []).filterMap text?

end Json

end Reasoning
