/-
  How decision rules score choices.

  A utility comes true with the confidence of its choice, otherwise its complement to one does;
  so each utility has a favourable and an adverse value.  If no choice has utilities, the
  scores on criteria take their place.  A choice without a value has zero for both.

  Scores are calculated over any kind of scalar, in the order that the definitions state.
-/
import Reasoning.Decision.Attribute
import Reasoning.Numeric.Scalar

namespace Reasoning

open Scalar

variable {α : Type} [Scalar α]

namespace Choice

/-- The values that count as outcomes. -/
def outcomes (fromScores : Bool) (c : Choice α) : Dict α :=
  if fromScores then c.criteriaScores else c.utilities

/-- The favourable and the adverse value of a choice. -/
def states (fromScores : Bool) (c : Choice α) (key : Text) : α × α :=
  match (c.outcomes fromScores).get? key with
  | some v => (v, one - v)
  | none => (zero, zero)

def meanRisk (c : Choice α) : α :=
  if c.risks.isEmpty then zero else Scalar.sum c.risks.values / Scalar.ofNat c.risks.length

def maxRisk (c : Choice α) : α := c.risks.values.foldl larger zero

/-- No choice has utilities. -/
def lackUtilities (cs : List (Choice α)) : Bool := cs.all fun c => c.utilities.isEmpty

/-- The keys of the outcomes of some choices, in order. -/
def outcomeKeys (fromScores : Bool) (cs : List (Choice α)) : List Text :=
  Dict.keys (Dict.ofList ((cs.flatMap fun c => Dict.keys (c.outcomes fromScores)).map (·, ())))

end Choice

namespace DecisionRule

/-- The outcomes that rules look at. -/
structure Outlook where
  fromScores : Bool
  keys : List Text
  deriving DecidableEq

def Outlook.of (cs : List (Choice α)) : Outlook :=
  let fromScores := Choice.lackUtilities cs
  ⟨fromScores, Choice.outcomeKeys fromScores cs⟩

variable (o : Outlook)

/-- The values of a choice on all keys. -/
def statesOf (c : Choice α) : List (α × α) := o.keys.map (c.states o.fromScores)

/-- The best outcome there is. -/
def maximaxScore (c : Choice α) : α :=
  (statesOf o c).foldl (fun best s => larger (larger best s.1) s.2) zero

/-- The worst outcome there is, the largest risk among them. -/
def maximinScore (c : Choice α) : α :=
  if o.keys.isEmpty && c.risks.isEmpty then zero
  else
    let worst := (statesOf o c).foldl (fun worst s => smaller (smaller worst s.1) s.2) one
    smaller worst (one - c.maxRisk)

/-- The best values of a key over all choices. -/
def bestStates (cs : List (Choice α)) (key : Text) : α × α :=
  cs.foldl
    (fun best c =>
      let s := c.states o.fromScores key
      (larger best.1 s.1, larger best.2 s.2))
    (zero, zero)

/-- How far the choice falls short of the best, where it falls shortest; one less that. -/
def regretScore (cs : List (Choice α)) (c : Choice α) : α :=
  let regret := o.keys.foldl
    (fun regret key =>
      let best := bestStates o cs key
      let s := c.states o.fromScores key
      larger (larger regret (best.1 - s.1)) (best.2 - s.2))
    zero
  one - clamp regret

/-- The mean outcome by the confidence of the choice, less its mean risk. -/
def expectedScore (c : Choice α) : α :=
  if o.keys.isEmpty then zero
  else
    let sum := (statesOf o c).foldl
      (fun sum s => sum + (c.confidence * s.1 + (one - c.confidence) * s.2)) zero
    clamp (sum / Scalar.ofNat o.keys.length * (one - c.meanRisk))

/-- Whether less of a criterion is better. -/
def isInverted : Criterion.Kind → Bool
  | .benefit => false
  | .cost | .risk | .uncertainty => true

/-- What a choice has on a criterion; risks count for criteria of risk only. -/
def valueOn? (c : Choice α) (k : Criterion α) : Option α :=
  c.criteriaScores.get? k.name <|> c.utilities.get? k.name <|>
    if k.kind = .risk then c.risks.get? k.name else none

/-- What a choice gains by a criterion. -/
def gain (c : Choice α) (sum : α) (k : Criterion α) : α :=
  match valueOn? c k with
  | some v => sum + k.weight * (if isInverted k.kind then one - v else v)
  | none => sum

/-- The criteria that count: those that are stated, else one for each key. -/
def effective (ks : List (Criterion α)) : List (Criterion α) :=
  if ks.isEmpty then o.keys.map fun k => ⟨k, k, one, .ofWords k, half⟩ else ks

/-- The weighted mean gain over the criteria that count. -/
def utilityScore (ks : List (Criterion α)) (c : Choice α) : α :=
  let ks := effective o ks
  let total := Scalar.sum (ks.map (·.weight))
  if less zero total || undefined total then clamp (ks.foldl (gain c) zero / total) else zero

/-- The score of one of the choices by a rule; the higher the better. -/
def score (kind : Kind) (ks : List (Criterion α)) (cs : List (Choice α)) (c : Choice α) : α :=
  let o := Outlook.of cs
  match kind with
  | .maximax => maximaxScore o c
  | .maximin => maximinScore o c
  | .minimaxRegret => regretScore o cs c
  | .expectedValue => expectedScore o c
  | .utilityMaximization => utilityScore o ks c

/-- The scores of the choices by a rule. -/
def scores (kind : Kind) (ks : List (Criterion α)) (cs : List (Choice α)) : List α :=
  cs.map (score kind ks cs)

end DecisionRule

end Reasoning
