/-
  What a decision rule decides.

  A rule picks the choice with the highest score, the first of several.  It is the more
  confident the more clearly the best score stands out from the second.
-/
import Reasoning.Decision.Scores
import Reasoning.Score

namespace Reasoning

/-- What a rule decides. -/
structure Verdict where
  rule : Text
  kind : DecisionRule.Kind
  /-- The choice that is picked, counted from zero. -/
  selected : Nat
  scores : List Single
  confidence : Single
  deriving DecidableEq

namespace Verdict

def toJson (v : Verdict) : Json :=
  .ofMembers [("rule", .string v.rule), ("kind", .string v.kind.name),
    ("selected", .ofNat v.selected), ("scores", .array (v.scores.map .ofSingle)),
    ("confidence", .ofSingle v.confidence)]

/-- The place of the first of the largest numbers. -/
def firstLargest (xs : List Single) : Nat :=
  match xs.zipIdx with
  | [] => 0
  | x :: rest => (rest.foldl (fun best y => if best.1 < y.1 then y else best) x).2

/-- Puts a number behind the numbers that are not smaller, searching from the end of a list
    whose largest number stands first. -/
def insertDescending (x : Single) (xs : List Single) : List Single :=
  if xs.head?.any fun y => y < x then x :: xs
  else
    let smaller := xs.reverse.takeWhile fun y => y < x
    xs.take (xs.length - smaller.length) ++ x :: smaller.reverse

/-- The numbers from the largest to the smallest. -/
def descending (xs : List Single) : List Single := xs.foldl (fun s x => insertDescending x s) []

/-- How clearly the largest number stands out from the second, on a scale from zero to one;
    a single number stands out fully. -/
def decisiveness (xs : List Single) : Single :=
  match descending xs with
  | a :: b :: _ => Score.clamp (2 * (a - b))
  | _ => 1

end Verdict

/-- Applies a rule to some choices. -/
def DecisionRule.decide (r : DecisionRule) (cs : List (Choice Single))
    (ks : List (Criterion Single)) : Verdict :=
  if cs.isEmpty then ⟨r.id, r.kind, 0, [], 0⟩
  else
    let scores := DecisionRule.scores r.kind ks cs
    { rule := r.id
      kind := r.kind
      selected := Verdict.firstLargest scores
      scores := scores
      confidence := Score.clamp (r.confidence * (0.5 + 0.5 * Verdict.decisiveness scores)) }

end Reasoning
