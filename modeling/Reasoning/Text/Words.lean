/-
  Words of a text.

  * `Text.tokens`: the maximal runs of word bytes, in the case they are written in;
  * `Text.words`: the words in small letters, which is what statements are compared by;
  * `Text.canonical`: the words of a statement with single spaces between them;
  * `Text.keywords`: the longer words that carry content, each once.
-/
import Reasoning.Text.Basic

namespace Reasoning.Text

/-- The maximal runs of bytes that satisfy `p`. -/
def runs (p : UInt8 → Bool) : Text → List Text
  | [] => []
  | b :: t =>
    if !p b then runs p t
    else match t, runs p t with
      | c :: _, w :: ws => if p c then (b :: w) :: ws else [b] :: w :: ws
      | _, ws => [b] :: ws

/-- The words of a text as they are written. -/
def tokens (t : Text) : List Text := runs Byte.isWord t

/-- The words of a text in small letters. -/
def words (t : Text) : List Text := runs Byte.isWord (lower t)

/-- Whether one of `ws` is among the words `ts`. -/
def hasAnyWord (ts : List Text) (ws : List Text) : Bool := ws.any ts.contains

/-- Whether `w` is a word of `t`, whatever the case. -/
def containsWord (t w : Text) : Bool := (words t).contains (lower w)

/-- The words of a statement with single spaces between them.  Two statements are the
    same statement when these agree. -/
def canonical (t : Text) : Text := join " " (words t)

/-- Same words in the same order, whatever the case. -/
def sameWords (a b : List Text) : Bool := a.map lower == b.map lower

/-! ## Keywords -/

/-- Function words, which carry no content of their own. -/
def stopWords : List Text := ofStrings
  ["the", "a", "an", "and", "or", "but", "if", "then", "of", "to", "in", "on",
   "for", "with", "by", "at", "from", "as", "is", "are", "was", "were", "be",
   "been", "it", "its", "this", "that", "these", "those", "we", "you", "they",
   "how", "what", "why", "when", "which", "can", "could", "should", "would",
   "will", "do", "does", "not", "no", "into", "about", "between", "there",
   "their", "our", "has", "have", "had", "than", "so", "such", "also"]

def isStopWord (w : Text) : Bool := stopWords.contains w

/-- Each element at its first place only. -/
def distinct [BEq α] : List α → List α
  | [] => []
  | a :: as => a :: (distinct as).filter (· != a)

/-- The distinct words of more than three bytes that are no stop words. -/
def keywords (t : Text) : List Text :=
  distinct ((words t).filter fun w => 3 < w.length && !isStopWord w)

end Reasoning.Text
