/-
  Results of reasoning.

  Every engine answers in the same form: a confidence, conclusions, the ledger of the steps
  that led to them, and how uncertain the answer is and why.
-/
import Reasoning.Ledger
import Reasoning.Mode

namespace Reasoning

/-- How uncertain an answer is, what makes it so, and what would help. -/
structure Uncertainty where
  level : Single
  sources : List Text
  mitigations : List Text
  deriving DecidableEq

def Uncertainty.toJson (u : Uncertainty) : Json :=
  .ofMembers [("level", .ofSingle u.level), ("sources", .ofTexts u.sources),
    ("mitigations", .ofTexts u.mitigations)]

/-- The answer of an engine. -/
structure Result where
  mode : Mode
  confidence : Single
  conclusions : List Text
  proof : Ledger
  alternatives : List Text
  uncertainty : Uncertainty
  evidence : List Text
  /-- There was nothing to reason about. -/
  noEvidence : Bool
  /-- What the engine found, in its own terms. -/
  details : Json

namespace Result

/-- The answer to an input with nothing to reason about. -/
def neutral (mode : Mode) (why : Text) (details : Json) (mitigations : List Text) : Result where
  mode := mode
  confidence := Score.neutral
  conclusions := []
  proof := .empty
  alternatives := []
  uncertainty := ⟨Score.neutral, [why], Text.ofString "Provide more specific input" :: mitigations⟩
  evidence := []
  noEvidence := true
  details := details

def toJson (r : Result) : Json :=
  .ofMembers [("mode", .string r.mode.name), ("confidence", .ofSingle r.confidence),
    ("conclusions", .ofTexts r.conclusions), ("proof", .array (r.proof.steps.map Step.toJson)),
    ("alternatives", .ofTexts r.alternatives), ("uncertainty", r.uncertainty.toJson),
    ("evidence", .ofTexts r.evidence), ("noEvidence", .bool r.noEvidence),
    ("details", r.details)]

end Result

end Reasoning
