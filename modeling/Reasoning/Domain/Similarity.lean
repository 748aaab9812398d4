/-
  How alike two lists of features are.

  Features are compared by their stems: two words are related if they are the same or begin
  with the same five bytes.

  * `Text.isRelated`, `Text.hasRelated`: one feature against another or against a pool;
  * `Concept.features`: the words of a concept's own name and its properties;
  * `similarity`: how much of two lists is shared, counted from the first.
-/
import Reasoning.Domain.Basic
import Reasoning.Score
import Reasoning.Text.Words

namespace Reasoning

/-! ## Related words -/

/-- The bytes that related words have in common at the beginning. -/
def Text.stemLength : Nat := 5

/-- Same word, or words with the same stem. -/
def Text.isRelated (a b : Text) : Bool :=
  a == b || (stemLength ≤ a.length && stemLength ≤ b.length &&
    a.take stemLength == b.take stemLength)

/-- Whether a word is related to one of a pool. -/
def Text.hasRelated (w : Text) (pool : List Text) : Bool := pool.any w.isRelated

/-- Whether one of the terms is related to one of the features. -/
def Text.anyRelated (terms features : List Text) : Bool := terms.any (Text.hasRelated · features)

/-! ## Similarity -/

/-- The members of `a` that have a partner in `b`. -/
def sharedFeatures (a b : List Text) : List Text := a.filter (Text.hasRelated · b)

/-- The share of the shorter list that is matched. -/
def overlapRatio (matched m n : Nat) : Single := .ofNat matched / .ofNat (min m n)

/-- The share of both lists together that is matched. -/
def unionRatio (matched m n : Nat) : Single := .ofNat matched / .ofNat (m + n - matched)

/-- How alike two lists of features are, as a score; an empty list is like nothing. -/
def similarity (a b : List Text) : Single :=
  if a.isEmpty || b.isEmpty then 0
  else
    let matched := (sharedFeatures a b).length
    Score.clamp (0.7 * overlapRatio matched a.length b.length +
      0.3 * unionRatio matched a.length b.length)

/-! ## Features of domains -/

/-- The texts of `more` that are not there yet are added in their order. -/
def Text.union (ts more : List Text) : List Text :=
  more.foldl (fun out t => if out.contains t then out else out ++ [t]) ts

/-- The words of a concept's own name and its properties. -/
def Concept.features (c : Concept) : List Text := Text.union c.name.words c.properties

namespace Domain

/-- Everything that a term can hit: the words of the domain's name and the features of its
    concepts. -/
def vocabulary (d : Domain) : List Text := d.name.words ++ d.concepts.flatMap (·.2.features)

/-- The number of terms that hit the domain. -/
def hits (d : Domain) (terms : List Text) : Nat :=
  terms.countP (Text.hasRelated · d.vocabulary)

/-- How much a domain has to do with some terms. -/
def relevance (d : Domain) (terms : List Text) : Single :=
  Binary.smaller 1 (0.2 * .ofNat (d.hits terms))

/-- The concepts that the terms touch, in their order. -/
def touched (d : Domain) (terms : List Text) : Dict Concept :=
  d.concepts.filter fun c => Text.anyRelated terms c.2.features

end Domain

end Reasoning
