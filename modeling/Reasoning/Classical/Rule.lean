/-
  Rules and axioms of classical reasoning.
-/
import Reasoning.Json.Basic

namespace Reasoning

namespace InferenceRule

/-- What a rule does with premises that fit it. -/
inductive Kind where
  | deduction
  | induction
  | abduction
  | analogy
  deriving Repr, DecidableEq

namespace Kind

def name : Kind → Text
  | deduction => "deduction"
  | induction => "induction"
  | abduction => "abduction"
  | analogy => "analogy"

/-- The kind with a name; a name that is none stands for deduction. -/
def ofName (s : Text) : Kind :=
  ([induction, abduction, analogy].find? fun k => k.name == s).getD deduction

end Kind

end InferenceRule

/-- A rule: patterns that premises have to fit, and a template for what follows. -/
structure InferenceRule where
  id : Text
  name : Text
  kind : InferenceRule.Kind
  /-- Patterns with capital letters for variables and `|` between alternatives. -/
  antecedents : List Text
  /-- A template that is filled with what the variables stand for. -/
  consequent : Text
  confidence : Single
  evidence : List Text
  deriving DecidableEq

namespace InferenceRule

def toJson (r : InferenceRule) : Json :=
  .ofMembers [("id", .string r.id), ("name", .string r.name), ("kind", .string r.kind.name),
    ("antecedents", .ofTexts r.antecedents), ("consequent", .string r.consequent),
    ("confidence", .ofSingle r.confidence), ("evidence", .ofTexts r.evidence)]

def ofJson (j : Json) : InferenceRule where
  id := j.textField "id" []
  name := j.textField "name" []
  kind := .ofName (j.textField "kind" [])
  antecedents := j.textsField "antecedents"
  consequent := j.textField "consequent" []
  confidence := j.anyNumberField "confidence" 0.8
  evidence := j.textsField "evidence"

end InferenceRule

/-- A statement, as a pattern, whose instances are certain. -/
structure Axiom where
  id : Text
  name : Text
  statement : Text
  deriving DecidableEq

namespace Axiom

def toJson (a : Axiom) : Json :=
  .ofMembers [("id", .string a.id), ("name", .string a.name), ("statement", .string a.statement)]

def ofJson (j : Json) : Axiom where
  id := j.textField "id" []
  name := j.textField "name" []
  statement := j.textField "statement" []

end Axiom

end Reasoning
