/-
  Operators, rules and worlds of modal reasoning.
-/
import Reasoning.Json.Basic

namespace Reasoning

/-- An operator that a symbol, its name or one of its keywords stands for. -/
structure ModalOperator where
  symbol : Text
  name : Text
  description : Text
  strength : Single
  /-- The symbol of the dual operator, empty if there is none. -/
  dual : Text
  keywords : List Text
  deriving DecidableEq

namespace ModalOperator

def toJson (o : ModalOperator) : Json :=
  .ofMembers [("symbol", .string o.symbol), ("name", .string o.name),
    ("description", .string o.description), ("strength", .ofSingle o.strength),
    ("dual", .string o.dual), ("keywords", .ofTexts o.keywords)]

def ofJson (j : Json) : ModalOperator where
  symbol := j.textField "symbol" []
  name := j.textField "name" []
  description := j.textField "description" []
  strength := j.anyNumberField "strength" 0.5
  dual := j.textField "dual" []
  keywords := j.textsField "keywords"

end ModalOperator

/-- A rule that an operator brings into play. -/
structure ModalRule where
  id : Text
  name : Text
  antecedent : Text
  consequent : Text
  /-- The name of the operator, or `any`. -/
  operator : Text
  confidence : Single
  evidence : List Text
  deriving DecidableEq

namespace ModalRule

def toJson (r : ModalRule) : Json :=
  .ofMembers [("id", .string r.id), ("name", .string r.name),
    ("antecedent", .string r.antecedent), ("consequent", .string r.consequent),
    ("operator", .string r.operator), ("confidence", .ofSingle r.confidence),
    ("evidence", .ofTexts r.evidence)]

def ofJson (j : Json) : ModalRule where
  id := j.textField "id" []
  name := j.textField "name" []
  antecedent := j.textField "antecedent" []
  consequent := j.textField "consequent" []
  operator := j.textField "operator" []
  confidence := j.anyNumberField "confidence" 0.8
  evidence := j.textsField "evidence"

end ModalRule

/-- A possible world: where it is reached from, what holds in it, and the weights of the
    edges to other worlds. -/
structure World where
  id : Text
  name : Text
  accessibleFrom : List Text
  propositions : Dict Bool
  accessibility : Dict Single
  deriving DecidableEq

namespace World

/-- The id of the world that every call starts from. -/
def actualId : Text := "w0"

def toJson (w : World) : Json :=
  .ofMembers [("id", .string w.id), ("name", .string w.name),
    ("accessible_from", .ofTexts w.accessibleFrom),
    ("propositions", .ofDict .bool w.propositions),
    ("accessibility", .ofDict .ofSingle w.accessibility)]

def ofJson (j : Json) : World where
  id := j.textField "id" []
  name := j.textField "name" []
  accessibleFrom := j.textsField "accessible_from"
  propositions := j.dictField "propositions" fun v => v.bool?.getD false
  accessibility := j.dictField "accessibility" Json.numberOrZero

end World

end Reasoning
