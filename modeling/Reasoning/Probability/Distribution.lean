/-
  Probability distributions.
-/
import Reasoning.Json.Basic

namespace Reasoning

namespace Distribution

inductive Kind where
  | discrete
  | continuous
  | mixed
  deriving Repr, DecidableEq

namespace Kind

def name : Kind → Text
  | discrete => "discrete"
  | continuous => "continuous"
  | mixed => "mixed"

/-- The kind with a name; a name that is none stands for a continuous distribution. -/
def ofName (s : Text) : Kind := ([discrete, mixed].find? fun k => k.name == s).getD continuous

end Kind

end Distribution

/-- A distribution with its support, and the words that ask for it. -/
structure Distribution where
  id : Text
  name : Text
  kind : Distribution.Kind
  parameters : Dict Single
  supportLow : Single
  supportHigh : Single
  mean : Single
  variance : Single
  keywords : List Text
  deriving DecidableEq

namespace Distribution

def toJson (d : Distribution) : Json :=
  .ofMembers [("id", .string d.id), ("name", .string d.name), ("kind", .string d.kind.name),
    ("parameters", .ofDict .ofSingle d.parameters),
    ("support", .array [.ofSingle d.supportLow, .ofSingle d.supportHigh]),
    ("mean", .ofSingle d.mean), ("variance", .ofSingle d.variance),
    ("keywords", .ofTexts d.keywords)]

def ofJson (j : Json) : Distribution :=
  let (low, high) := match j.listField "support" with
    | [a, b] => (a.numberOrZero, b.numberOrZero)
    | _ => (0, 1)
  { id := j.textField "id" []
    name := j.textField "name" []
    kind := .ofName (j.textField "kind" [])
    parameters := j.dictField "parameters" Json.numberOrZero
    supportLow := low
    supportHigh := high
    mean := j.anyNumberField "mean" 0.5
    variance := j.anyNumberField "variance" 0
    keywords := j.textsField "keywords" }

end Distribution

end Reasoning
