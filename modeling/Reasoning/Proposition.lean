/-
  Propositions: the premises that engines reason from.
-/
import Reasoning.Score
import Reasoning.Json.Basic

namespace Reasoning

namespace Proposition

/-- What a statement is taken for. -/
inductive Kind where
  | fact
  | assumption
  | hypothesis
  | observation
  deriving Repr, DecidableEq

namespace Kind

def name : Kind → Text
  | fact => "fact"
  | assumption => "assumption"
  | hypothesis => "hypothesis"
  | observation => "observation"

/-- The kind with a name; a name that is none stands for an assumption. -/
def ofName (s : Text) : Kind :=
  ([fact, hypothesis, observation].find? fun k => k.name == s).getD assumption

end Kind

end Proposition

/-- A statement, how certain it is, and where it comes from. -/
structure Proposition where
  id : Text
  text : Text
  certainty : Single
  kind : Proposition.Kind
  source : Text
  deriving DecidableEq

def Proposition.toJson (p : Proposition) : Json :=
  .ofMembers [("id", .string p.id), ("text", .string p.text), ("certainty", .ofSingle p.certainty),
    ("kind", .string p.kind.name), ("source", .string p.source)]

end Reasoning
