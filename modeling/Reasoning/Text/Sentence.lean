/-
  Sentences of a text.

  A sentence ends at `.`, `!`, `?` or a line feed; a point between two digits is a
  decimal point and ends nothing.  Fragments without a letter or digit are dropped.
-/
import Reasoning.Text.Basic

namespace Reasoning

/-- A trimmed fragment of a text and the byte that ended it, if one did. -/
structure Sentence where
  text : Text
  terminator : Option UInt8
  deriving Repr, DecidableEq

namespace Sentence

/-- Whether the byte `b` ends a sentence between its two neighbours. -/
def isBoundary (previous : Option UInt8) (b : UInt8) (next : Option UInt8) : Bool :=
  b == '!'.toUInt8 || b == '?'.toUInt8 || b == '\n'.toUInt8 ||
    (b == '.'.toUInt8 && !(previous.any Byte.isDigit && next.any Byte.isDigit))

/-- Everything between boundaries, as written; `previous` is the byte before the text. -/
def fragments (previous : Option UInt8) : Text → List Sentence
  | [] => [⟨[], none⟩]
  | b :: t =>
    if isBoundary previous b t.head? then ⟨[], some b⟩ :: fragments (some b) t
    else match fragments (some b) t with
      | [] => [⟨[b], none⟩]
      | f :: fs => { f with text := b :: f.text } :: fs

/-- Trims a fragment; one without a letter or digit is no sentence. -/
def ofFragment? (f : Sentence) : Option Sentence :=
  let t := f.text.trim
  if t.hasAlnum then some { f with text := t } else none

end Sentence

/-- The sentences of a text, in order. -/
def Text.sentences (t : Text) : List Sentence :=
  (Sentence.fragments none t).filterMap Sentence.ofFragment?

end Reasoning
