/-
  What decisions are made about: the choices, the criteria they are judged by, and the
  rules that pick one.

  The numbers of choices and criteria are of any kind of scalar, so that the rules can be
  looked at with exact numbers too.
-/
import Reasoning.Json.Basic

namespace Reasoning

/-- A choice with what is known about it. -/
structure Choice (α : Type) where
  id : Text
  name : Text
  description : Text
  criteriaScores : Dict α
  utilities : Dict α
  risks : Dict α
  /-- How reliable the numbers are. -/
  confidence : α
  deriving DecidableEq

namespace Choice

def toJson (c : Choice Single) : Json :=
  .ofMembers [("id", .string c.id), ("name", .string c.name),
    ("description", .string c.description),
    ("criteria_scores", .ofDict .ofSingle c.criteriaScores),
    ("utilities", .ofDict .ofSingle c.utilities), ("risks", .ofDict .ofSingle c.risks),
    ("confidence", .ofSingle c.confidence)]

def ofJson (j : Json) : Choice Single where
  id := j.textField "id" []
  name := j.textField "name" []
  description := j.textField "description" []
  criteriaScores := j.dictField "criteria_scores" Json.numberOrZero
  utilities := j.dictField "utilities" Json.numberOrZero
  risks := j.dictField "risks" Json.numberOrZero
  confidence := j.anyNumberField "confidence" 0.7

end Choice

namespace Criterion

/-- Which way a criterion counts: only a benefit is better when it is larger. -/
inductive Kind where
  | benefit
  | cost
  | risk
  | uncertainty
  deriving Repr, DecidableEq

namespace Kind

def all : List Kind := [benefit, cost, risk, uncertainty]

def name : Kind → Text
  | benefit => "benefit"
  | cost => "cost"
  | risk => "risk"
  | uncertainty => "uncertainty"

def ofName? (s : Text) : Option Kind := all.find? fun k => k.name == s

end Kind

end Criterion

/-- What choices are judged by. -/
structure Criterion (α : Type) where
  id : Text
  name : Text
  weight : α
  kind : Criterion.Kind
  importance : α
  deriving DecidableEq

namespace Criterion

def toJson (c : Criterion Single) : Json :=
  .ofMembers [("id", .string c.id), ("name", .string c.name), ("weight", .ofSingle c.weight),
    ("type", .string c.kind.name), ("importance", .ofSingle c.importance)]

def ofJson (j : Json) : Criterion Single where
  id := j.textField "id" []
  name := j.textField "name" []
  weight := j.anyNumberField "weight" 1
  kind := (Kind.ofName? (j.textField "type" [])).getD .benefit
  importance := j.anyNumberField "importance" 0.5

end Criterion

namespace DecisionRule

/-- How a rule scores choices. -/
inductive Kind where
  | maximax
  | maximin
  | minimaxRegret
  | expectedValue
  | utilityMaximization
  deriving Repr, DecidableEq

namespace Kind

def all : List Kind := [maximax, maximin, minimaxRegret, expectedValue, utilityMaximization]

def name : Kind → Text
  | maximax => "maximax"
  | maximin => "maximin"
  | minimaxRegret => "minimax_regret"
  | expectedValue => "expected_value"
  | utilityMaximization => "utility_maximization"

def ofName? (s : Text) : Option Kind := all.find? fun k => k.name == s

end Kind

end DecisionRule

/-- A rule that picks a choice. -/
structure DecisionRule where
  id : Text
  name : Text
  kind : DecisionRule.Kind
  description : Text
  confidence : Single
  evidence : List Text
  deriving DecidableEq

namespace DecisionRule

def toJson (r : DecisionRule) : Json :=
  .ofMembers [("id", .string r.id), ("name", .string r.name), ("kind", .string r.kind.name),
    ("description", .string r.description), ("confidence", .ofSingle r.confidence),
    ("evidence", .ofTexts r.evidence)]

def ofJson (j : Json) : DecisionRule where
  id := j.textField "id" []
  name := j.textField "name" []
  kind := (Kind.ofName? (j.textField "kind" [])).getD .expectedValue
  description := j.textField "description" []
  confidence := j.anyNumberField "confidence" 0.8
  evidence := j.textsField "evidence"

end DecisionRule

end Reasoning
