/-
  Attributes of choices.

  An attribute is a number on one of three scales.  Scores and utilities are given from zero
  to ten, risks from zero to a hundred; `Attribute.normalize` brings them to scores.  Texts
  give attributes in the form "quality score:8".
-/
import Reasoning.Decision.Choice
import Reasoning.Numeric.Numeral
import Reasoning.Score
import Reasoning.Text.Regex
import Reasoning.Text.Words

namespace Reasoning

namespace Criterion.Kind

/-- The kind of criterion that a name speaks of. -/
def ofWords (name : Text) : Kind :=
  let ws := name.words
  if Text.hasAnyWord ws ["cost", "costs", "price", "expense", "effort", "spend"] then .cost
  else if Text.hasAnyWord ws ["risk", "risks", "danger", "exposure"] then .risk
  else if Text.hasAnyWord ws ["uncertainty", "uncertain", "unknown", "volatility"] then
    .uncertainty
  else .benefit

end Criterion.Kind

/-- What the number of an attribute is about. -/
inductive Scale where
  | score
  | utility
  | risk
  deriving Repr, DecidableEq

namespace Scale

def name : Scale → Text
  | score => "score"
  | utility => "utility"
  | risk => "risk"

/-- The words that tag an attribute. -/
def tags : List (Text × Scale) :=
  [("score", score), ("rating", score), ("utility", utility), ("benefit", utility),
   ("value", utility), ("risk", risk), ("probability", risk), ("chance", risk)]

def ofTag? (tag : Text) : Option Scale := List.lookup tag tags

/-- The largest number of the scale. -/
def top : Scale → Single
  | risk => 100
  | _ => 10

/-- A number of the scale as a score.  A number that is a score already is taken as it is
    where `unit` allows it. -/
def normalize (s : Scale) (x : Single) (unit : Bool) : Single :=
  if unit && decide ((0 : Single) ≤ x) && decide (x ≤ 1) then x else Score.clamp (x / s.top)

end Scale

namespace Choice

/-- Sets an attribute. -/
def setAttribute (c : Choice Single) (s : Scale) (key : Text) (x : Single) : Choice Single :=
  match s with
  | .score => { c with criteriaScores := c.criteriaScores.insert key x }
  | .utility => { c with utilities := c.utilities.insert key x }
  | .risk => { c with risks := c.risks.insert key x }

open Regex in
/-- A name, if there is one, a tag, a colon or equals sign, and a number. -/
def attributePattern : Regex :=
  let digits := atLeastOne Byte.isDigit
  let isLetter (b : UInt8) : Bool := Byte.isAlpha b || b == '_'.toUInt8
  ofList [
    opt (seq (group 1 (atLeastOne isLetter)) space),
    group 2 (oneOf (Scale.tags.map fun t => word t.1)),
    many Byte.isSpace, byte fun b => b == ':'.toUInt8 || b == '='.toUInt8, many Byte.isSpace,
    group 3 (seq digits (opt (seq (exactly ".") digits)))]

/-- What an attribute is called: its name, or its tag if the name says nothing of its own. -/
def attributeKey (c : Choice Single) (name tag : Text) : Text :=
  if name.isEmpty || name == Text.ofString "option" || name == c.name.lower ||
      Text.isStopWord name || (Scale.ofTag? name).isSome then tag
  else name

/-- Sets the attribute of one match; a number that is too large is left out. -/
def addMatch (c : Choice Single) (m : Regex.Match) : Choice Single :=
  let tag := (m.piece 2).lower
  match Scale.ofTag? tag, Single.ofText? (m.piece 3) with
  | some s, some x =>
    c.setAttribute s (c.attributeKey (m.piece 1).lower tag) (s.normalize x false)
  | _, _ => c

/-- Sets the attributes that a text gives. -/
def addAttributes (c : Choice Single) (t : Text) : Choice Single :=
  (attributePattern.all t).foldl addMatch c

end Choice

end Reasoning
