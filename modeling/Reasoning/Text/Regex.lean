/-
  Expressions for pieces of a text.

  An expression is matched at a place of a text by trying its choices in order and
  coming back to the next one when what follows fails.  `Regex.search` finds the leftmost
  place where it matches, `Regex.all` all matches that do not overlap, from the left.

  * `run e k` runs `e` in front of the continuation `k`;
  * a group keeps the piece that its expression matched, under a number.
-/
import Reasoning.Text.Basic

namespace Reasoning

/-- An expression over bytes. -/
inductive Regex where
  /-- One byte of a class. -/
  | byte (p : UInt8 → Bool)
  /-- The empty piece between a letter, digit or underscore and something else. -/
  | boundary
  /-- One after the other. -/
  | seq (a b : Regex)
  /-- The first if it leads to a match, else the second. -/
  | alt (a b : Regex)
  /-- The expression if that leads to a match, else nothing. -/
  | opt (a : Regex)
  /-- Bytes of a class, as many as possible. -/
  | many (p : UInt8 → Bool)
  /-- Bytes of a class, as few as possible. -/
  | few (p : UInt8 → Bool)
  /-- Keeps what the expression matched. -/
  | group (n : Nat) (a : Regex)

namespace Regex

/-- The pieces kept so far, the latest first. -/
abbrev Captures := List (Nat × Text)

/-- A place in a text: the byte before it and the bytes after it. -/
structure Place where
  previous : Option UInt8
  rest : Text

/-- Letters, digits and underscore: what `boundary` looks at. -/
def isName (b : UInt8) : Bool := Byte.isAlnum b || b == '_'.toUInt8

def Place.atBoundary (x : Place) : Bool := x.previous.any isName != x.rest.head?.any isName

/-- Goes over bytes of the class while that leads to a match, else goes on from here. -/
def runMany (p : UInt8 → Bool) (k : Place → Option α) (previous : Option UInt8) :
    Text → Option α
  | [] => k ⟨previous, []⟩
  | b :: t =>
    if p b then runMany p k (some b) t <|> k ⟨previous, b :: t⟩ else k ⟨previous, b :: t⟩

/-- Goes on from here if that leads to a match, else goes over one more byte. -/
def runFew (p : UInt8 → Bool) (k : Place → Option α) (previous : Option UInt8) :
    Text → Option α
  | [] => k ⟨previous, []⟩
  | b :: t => k ⟨previous, b :: t⟩ <|> if p b then runFew p k (some b) t else none

/-- Matches the expression at a place and goes on with `k`; the first way through wins. -/
def run : Regex → (Place → Captures → Option α) → Place → Captures → Option α
  | byte p, k, x, c =>
    match x.rest with
    | [] => none
    | b :: t => if p b then k ⟨some b, t⟩ c else none
  | boundary, k, x, c => if x.atBoundary then k x c else none
  | seq a b, k, x, c => run a (run b k) x c
  | alt a b, k, x, c => run a k x c <|> run b k x c
  | opt a, k, x, c => run a k x c <|> k x c
  | many p, k, x, c => runMany p (k · c) x.previous x.rest
  | few p, k, x, c => runFew p (k · c) x.previous x.rest
  | group n a, k, x, c =>
    run a (fun y c' => k y ((n, x.rest.take (x.rest.length - y.rest.length)) :: c')) x c

/-- A match: its length in bytes and the pieces of its groups. -/
structure Match where
  length : Nat
  captures : Captures

/-- The piece of a group, empty if the group took no part. -/
def Match.piece (m : Match) (n : Nat) : Text := (m.captures.lookup n).getD []

/-- The match at a place, if there is one. -/
def matchAt (e : Regex) (x : Place) : Option Match :=
  e.run (fun y c => some ⟨x.rest.length - y.rest.length, c⟩) x []

/-- `all`, with the byte before and the number of bytes of the last match that are still
    to be passed over. -/
def allFrom (e : Regex) : Option UInt8 → Nat → Text → List Match
  | _, _, [] => []
  | _, skip + 1, b :: t => allFrom e (some b) skip t
  | previous, 0, b :: t =>
    match e.matchAt ⟨previous, b :: t⟩ with
    | some m => m :: allFrom e (some b) (m.length - 1) t
    | none => allFrom e (some b) 0 t

/-- The matches of a text that start in front of some byte and do not overlap. -/
def all (e : Regex) (t : Text) : List Match := allFrom e none 0 t

/-- `search`, with the byte before. -/
def searchFrom (e : Regex) : Option UInt8 → Text → Option Match
  | _, [] => none
  | previous, b :: t => e.matchAt ⟨previous, b :: t⟩ <|> searchFrom e (some b) t

/-- The leftmost match. -/
def search (e : Regex) (t : Text) : Option Match := searchFrom e none t

/-! ## Expressions by name -/

/-- One after the other, from a list that is not empty. -/
def ofList : List Regex → Regex
  | [] => many fun _ => false
  | [e] => e
  | e :: es => seq e (ofList es)

/-- The first of the list that leads to a match. -/
def oneOf : List Regex → Regex
  | [] => byte fun _ => false
  | [e] => e
  | e :: es => alt e (oneOf es)

/-- The very bytes of a text. -/
def exactly (t : Text) : Regex := ofList (t.map fun b => byte (· == b))

/-- The letters of a text in either case. -/
def word (t : Text) : Regex := ofList (t.map fun b => byte fun c => Byte.lower c == Byte.lower b)

/-- At least one byte of the class, as many as possible. -/
def atLeastOne (p : UInt8 → Bool) : Regex := seq (byte p) (many p)

/-- At least one byte of space. -/
def space : Regex := atLeastOne Byte.isSpace

end Regex

end Reasoning
