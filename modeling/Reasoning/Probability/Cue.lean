/-
  What a text says about a probability.

  * `statedProbability?`: a percentage, or a number behind "probability", "chance" or "odds";
  * `verbalProbability?`: what words like "unlikely" or "almost certain" stand for;
  * `bucket`, `descriptor`: words for a probability and for a confidence;
  * `bayesPosterior?`: the update of a prior by evidence.
-/
import Reasoning.Numeric.Numeral
import Reasoning.Score
import Reasoning.Text.Regex
import Reasoning.Text.Search
import Reasoning.Text.Words

namespace Reasoning.Probability

/-- What is assumed of a claim that nothing is said about. -/
def baseline : Single := 0.5

/-- The probability of a claim after evidence, if the evidence has any probability. -/
def bayesPosterior? (prior likelihood evidence : Single) : Option Single :=
  if 0 < evidence then some (Score.clamp (likelihood * prior / evidence)) else none

/-- A word for a probability. -/
def bucket (p : Single) : Text :=
  if p < 0.3 then "unlikely"
  else if p < 0.5 then "possible"
  else if p < 0.7 then "likely"
  else if p < 0.9 then "very likely"
  else "certain"

/-- A word for a confidence. -/
def descriptor (c : Single) : Text :=
  if c < 0.3 then "low"
  else if c < 0.6 then "moderate"
  else if c < 0.8 then "high"
  else "very high"

/-! ## Cues in a text -/

open Regex in
/-- Digits with an optional fraction, and a percent sign. -/
def percentage : Regex :=
  let digits := atLeastOne Byte.isDigit
  ofList [group 1 (seq digits (opt (seq (exactly ".") digits))), many Byte.isSpace, exactly "%"]

open Regex in
/-- A number from zero to one behind a word for probability. -/
def chance : Regex :=
  let fraction (p : UInt8 → Bool) := opt (seq (exactly ".") (atLeastOne p))
  ofList [
    oneOf [word "probability", word "chance", word "odds"], space,
    opt (alt (seq (word "of") space) (seq (word "is") space)),
    group 1 (alt (seq (exactly "0") (fraction Byte.isDigit))
      (seq (exactly "1") (fraction (· == '0'.toUInt8)))),
    boundary]

/-- The first percentage, if it is at most a hundred; else the first number behind a word for
    probability. -/
def statedProbability? (input : Text) : Option Single :=
  let percent := do
    let m ← percentage.search input
    let v ← Single.ofText? (m.piece 1)
    if (0 : Single) ≤ v ∧ v ≤ 100 then some (v / 100) else none
  let number := do
    let m ← chance.search input
    let v ← Single.ofText? (m.piece 1)
    some (Score.clamp v)
  percent <|> number

/-- Phrases of likelihood; longer phrases come before the words they contain. -/
def phrases : List (String × Single) := [
  ("impossible", 0.02),
  ("almost certain", 0.95), ("almost certainly", 0.95),
  ("very unlikely", 0.1), ("highly unlikely", 0.1),
  ("very likely", 0.85), ("highly likely", 0.85),
  ("unlikely", 0.25), ("improbable", 0.25),
  ("likely", 0.7), ("probably", 0.7), ("probable", 0.7),
  ("doubtful", 0.3)]

/-- The probability of the first phrase of the list that stands in the input. -/
def verbalProbability? (input : Text) : Option Single :=
  let spaced (t : Text) : Text := Text.ofString " " ++ t ++ Text.ofString " "
  let text := spaced input.canonical
  (phrases.find? fun p => text.contains (spaced (Text.ofString p.1))).map (·.2)

end Reasoning.Probability
