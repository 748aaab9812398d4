/-
  Reading JSON.

  The reader is strict: one value between space, objects and arrays without trailing
  commas, numbers without leading zeros, strings of valid UTF-8 without control bytes and
  without half of a surrogate pair.  A byte order mark in front is passed over.  A zero byte
  between the parts of a value ends the text, whatever is behind it.  Of members with one key the
  last counts.

  A number is whole if it is written without point and exponent and fits 64 bits; else it
  is rounded to double precision, and a number too large for that is a fault of its own.
-/
import Reasoning.Json.Basic
import Reasoning.Numeric.Numeral
import Reasoning.Text.Utf8

namespace Reasoning.Json

/-- Why a text is not read. -/
inductive Fault where
  /-- The text is not one JSON value. -/
  | malformed
  /-- A number is infinite in double precision. -/
  | numberTooLarge
  deriving Repr, DecidableEq

/-- What goes wrong with a value: it is not read from a text, it is used as an object or as a text
    and is none, or it has a string that is not valid UTF-8 and is not written. -/
inductive Exception where
  | unread (t : Text) (f : Fault)
  | notAnObject (j : Json)
  | notAText (j : Json)
  | unprintable (j : Json)

/-- The name that an exception is reported with. -/
def Exception.name : Exception → Text
  | unread _ .malformed => "[json.exception.parse_error.101]"
  | unread _ .numberTooLarge => "[json.exception.out_of_range.406]"
  | notAnObject _ => "[json.exception.type_error.306]"
  | notAText _ => "[json.exception.type_error.302]"
  | unprintable _ => "[json.exception.type_error.316]"

/-- How exceptions are put into words.  A wording may quote the bytes that were read last, valid
    UTF-8 or not, so whatever writes one takes it as a parameter. -/
abbrev Wording := Exception → Text

/-- Space between the parts of a value. -/
def isBlank (b : UInt8) : Bool :=
  b == ' '.toUInt8 || b == '\t'.toUInt8 || b == '\n'.toUInt8 || b == '\r'.toUInt8

def skipBlank (t : Text) : Text := t.dropWhile isBlank

/-! ## Numbers -/

/-- The digits of a numeral as they are written. -/
structure Digits where
  negative : Bool
  whole : Text
  fraction : Text
  exponent : Option (Bool × Text)

/-- Digits, at least one. -/
def digits? (t : Text) : Option (Text × Text) :=
  let ds := t.takeWhile Byte.isDigit
  if ds.isEmpty then none else some (ds, t.dropWhile Byte.isDigit)

/-- The places behind a point, if there is a point. -/
def fraction? : Text → Option (Text × Text)
  | b :: t => if b == '.'.toUInt8 then digits? t else some ([], b :: t)
  | [] => some ([], [])

/-- The exponent, if there is one. -/
def exponent? (t : Text) : Option (Option (Bool × Text) × Text) :=
  match t with
  | b :: r =>
    if Byte.lower b == 'e'.toUInt8 then
      let (negative, r) := Numeral.scanSign r
      (digits? r).map fun (ds, r) => (some (negative, ds), r)
    else some (none, t)
  | [] => some (none, [])

/-- Reads a numeral; a zero in front of other digits is refused. -/
def numeral? (t : Text) : Option (Digits × Text) := do
  let (negative, t) := match t with
    | b :: r => if b == '-'.toUInt8 then (true, r) else (false, t)
    | [] => (false, [])
  let (whole, t) ← match t with
    | b :: r => if b == '0'.toUInt8 then some ([b], r) else digits? t
    | [] => none
  let (fraction, t) ← fraction? t
  let (exponent, t) ← exponent? t
  some (⟨negative, whole, fraction, exponent⟩, t)

/-- The whole number of a list of digits. -/
def wholeOf (ds : Text) : Nat := Numeral.ofDigits 10 (ds.map Byte.digitValue)

/-- The value of a numeral. -/
def Digits.value (d : Digits) : Except Fault Json :=
  let n := wholeOf d.whole
  if d.fraction.isEmpty && d.exponent.isNone &&
      (if d.negative then n ≤ Nat.pow 2 63 else n < Nat.pow 2 64) then
    .ok (int (if d.negative then -n else n))
  else
    let ds := d.whole ++ d.fraction
    let e : Int := match d.exponent with
      | none => 0
      | some (negative, es) =>
        let e : Int := min (Numeral.exponentLimit ds.length) (wholeOf es)
        if negative then -e else e
    let x : Double := (Numeral.mk d.negative (wholeOf ds) 10 (e - d.fraction.length)).toBinary
    if x.isFinite then .ok (real x) else .error .numberTooLarge

def readNumber (t : Text) : Except Fault (Json × Text) :=
  match numeral? t with
  | none => .error .malformed
  | some (d, t) => d.value.map (·, t)

/-! ## Strings -/

/-- The value of four hexadecimal digits. -/
def hex4? : Text → Option (Nat × Text)
  | a :: b :: c :: d :: t => do
    let n := Numeral.ofDigits 16 [← Byte.hexValue? a, ← Byte.hexValue? b, ← Byte.hexValue? c,
      ← Byte.hexValue? d]
    some (n, t)
  | _ => none

/-- The byte that a letter behind a backslash stands for. -/
def escaped? (b : UInt8) : Option UInt8 :=
  List.lookup b
    [('"'.toUInt8, '"'.toUInt8), ('\\'.toUInt8, '\\'.toUInt8), ('/'.toUInt8, '/'.toUInt8),
     ('b'.toUInt8, 8), ('f'.toUInt8, 12), ('n'.toUInt8, 10), ('r'.toUInt8, 13), ('t'.toUInt8, 9)]

/-- Reads what stands behind a backslash; two escapes of surrogates make one symbol. -/
def escape? : Text → Option (Text × Text)
  | [] => none
  | b :: t =>
    if b == 'u'.toUInt8 then do
      let (n, t) ← hex4? t
      if 0xD800 ≤ n && n < 0xDC00 then
        match t with
        | s :: u :: t =>
          if s == '\\'.toUInt8 && u == 'u'.toUInt8 then do
            let (m, t) ← hex4? t
            if 0xDC00 ≤ m && m < 0xE000 then
              some (Utf8.encode (0x10000 + (n - 0xD800) * 0x400 + (m - 0xDC00)), t)
            else none
          else none
        | _ => none
      else if 0xDC00 ≤ n && n < 0xE000 then none
      else some (Utf8.encode n, t)
    else (escaped? b).map fun c => ([c], t)

/-- Reads a string behind its opening quote, the read bytes in reverse; each step takes at
    least one byte, so the length of the text is `fuel` enough. -/
def stringFrom : Nat → Text → Text → Option (Text × Text)
  | 0, _, _ => none
  | _, _, [] => none
  | fuel + 1, done, b :: t =>
    if b == '"'.toUInt8 then some (done.reverse, t)
    else if b == '\\'.toUInt8 then do
      let (bytes, t) ← escape? t
      stringFrom fuel (bytes.reverse ++ done) t
    else if b < 0x20 then none
    else do
      let n ← Utf8.size? (b :: t)
      stringFrom fuel (((b :: t).take n).reverse ++ done) ((b :: t).drop n)

def readString (t : Text) : Except Fault (Text × Text) :=
  match stringFrom (t.length + 1) [] t with
  | some r => .ok r
  | none => .error .malformed

/-! ## Values -/

/-- Reads a word that stands for a value. -/
def readWord (w : Text) (j : Json) (t : Text) : Except Fault (Json × Text) :=
  if w.isPrefixOf t then .ok (j, t.drop w.length) else .error .malformed

mutual

/-- Reads a value at the start of a text; each level of nesting and each element takes one
    unit of fuel and at least one byte. -/
def readValue : Nat → Text → Except Fault (Json × Text)
  | 0, _ => .error .malformed
  | _, [] => .error .malformed
  | fuel + 1, b :: t =>
    if b == '"'.toUInt8 then (readString t).map fun (s, t) => (string s, t)
    else if b == '['.toUInt8 then
      match skipBlank t with
      | [] => .error .malformed
      | c :: r =>
        if c == ']'.toUInt8 then .ok (array [], r)
        else (readElements fuel (c :: r)).map fun (es, t) => (array es, t)
    else if b == '\x7b'.toUInt8 then
      match skipBlank t with
      | [] => .error .malformed
      | c :: r =>
        if c == '\x7d'.toUInt8 then .ok (object [], r)
        else (readMembers fuel (c :: r)).map fun (ms, t) => (object (Dict.ofList ms), t)
    else if b == 'n'.toUInt8 then readWord "null" null (b :: t)
    else if b == 't'.toUInt8 then readWord "true" (bool true) (b :: t)
    else if b == 'f'.toUInt8 then readWord "false" (bool false) (b :: t)
    else readNumber (b :: t)

/-- Reads the elements of an array that is not empty, to its end. -/
def readElements : Nat → Text → Except Fault (List Json × Text)
  | 0, _ => .error .malformed
  | fuel + 1, t => do
    let (e, t) ← readValue fuel (skipBlank t)
    match skipBlank t with
    | [] => .error .malformed
    | c :: t =>
      if c == ']'.toUInt8 then .ok ([e], t)
      else if c == ','.toUInt8 then do
        let (es, t) ← readElements fuel t
        .ok (e :: es, t)
      else .error .malformed

/-- Reads the members of an object that is not empty, to its end. -/
def readMembers : Nat → Text → Except Fault (List (Text × Json) × Text)
  | 0, _ => .error .malformed
  | fuel + 1, t => do
    match skipBlank t with
    | [] => .error .malformed
    | q :: t =>
      if q != '"'.toUInt8 then .error .malformed
      else do
        let (key, t) ← readString t
        match skipBlank t with
        | [] => .error .malformed
        | c :: t =>
          if c != ':'.toUInt8 then .error .malformed
          else do
            let (v, t) ← readValue fuel (skipBlank t)
            match skipBlank t with
            | [] => .error .malformed
            | c :: t =>
              if c == '\x7d'.toUInt8 then .ok ([(key, v)], t)
              else if c == ','.toUInt8 then do
                let (ms, t) ← readMembers fuel t
                .ok ((key, v) :: ms, t)
              else .error .malformed

end

/-- The text behind a byte order mark, or the text itself. -/
def skipMark (t : Text) : Text :=
  if List.isPrefixOf [0xEF, 0xBB, 0xBF] t then t.drop 3 else t

/-- Whether a text is over: it has no more bytes, or the next is zero. -/
def isOver (t : Text) : Bool := t.head?.all (· == 0)

/-- Reads a text that is one JSON value. -/
def parse (t : Text) : Except Fault Json := do
  let t := skipMark t
  let (j, rest) ← readValue (2 * t.length + 2) (skipBlank t)
  if isOver (skipBlank rest) then .ok j else .error .malformed

end Reasoning.Json
