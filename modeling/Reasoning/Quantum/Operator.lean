/-
  Operators and rules of quantum reasoning.
-/
import Reasoning.Json.Basic

namespace Reasoning

namespace QuantumOperator

inductive Kind where
  | unitary
  | measurement
  | entanglement
  deriving Repr, DecidableEq

namespace Kind

def name : Kind → Text
  | unitary => "unitary"
  | measurement => "measurement"
  | entanglement => "entanglement"

/-- The kind with a name; a name that is none stands for a unitary operator. -/
def ofName (s : Text) : Kind :=
  ([measurement, entanglement].find? fun k => k.name == s).getD unitary

end Kind

end QuantumOperator

/-- An operator on states, given by a matrix, and the words that stand for it. -/
structure QuantumOperator where
  symbol : Text
  name : Text
  description : Text
  matrix : List (List Single)
  kind : QuantumOperator.Kind
  strength : Single
  keywords : List Text
  deriving DecidableEq

namespace QuantumOperator

def toJson (o : QuantumOperator) : Json :=
  .ofMembers [("symbol", .string o.symbol), ("name", .string o.name),
    ("description", .string o.description),
    ("matrix", .array (o.matrix.map fun row => .array (row.map .ofSingle))),
    ("kind", .string o.kind.name), ("strength", .ofSingle o.strength),
    ("keywords", .ofTexts o.keywords)]

def ofJson (j : Json) : QuantumOperator where
  symbol := j.textField "symbol" []
  name := j.textField "name" []
  description := j.textField "description" []
  matrix := (j.listField "matrix").map fun row => (row.elements?.getD []).map Json.numberOrZero
  kind := .ofName (j.textField "kind" [])
  strength := j.anyNumberField "strength" 0.5
  keywords := j.textsField "keywords"

end QuantumOperator

/-- A rule that an operator brings into play. -/
structure QuantumRule where
  id : Text
  name : Text
  antecedent : Text
  consequent : Text
  constraint : Text
  /-- The name of the operator. -/
  trigger : Text
  confidence : Single
  evidence : List Text
  deriving DecidableEq

namespace QuantumRule

def toJson (r : QuantumRule) : Json :=
  .ofMembers [("id", .string r.id), ("name", .string r.name),
    ("antecedent", .string r.antecedent), ("consequent", .string r.consequent),
    ("constraint", .string r.constraint), ("trigger", .string r.trigger),
    ("confidence", .ofSingle r.confidence), ("evidence", .ofTexts r.evidence)]

def ofJson (j : Json) : QuantumRule where
  id := j.textField "id" []
  name := j.textField "name" []
  antecedent := j.textField "antecedent" []
  consequent := j.textField "consequent" []
  constraint := j.textField "constraint" []
  trigger := j.textField "trigger" []
  confidence := j.anyNumberField "confidence" 0.8
  evidence := j.textsField "evidence"

end QuantumRule

end Reasoning
