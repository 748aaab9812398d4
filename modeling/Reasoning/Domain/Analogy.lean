/-
  Concepts of a domain that a structure is like.

  The features of the structure are compared with those of every concept of the domain; the
  concepts that are similar enough are analogies, the most confident first.  A structure without
  features is compared with nothing.
-/
import Reasoning.Domain.Solution
import Reasoning.Domain.Structure
import Reasoning.Metrics

namespace Reasoning

/-- A concept that a structure is like, and what that suggests. -/
structure Analogy where
  targetDomain : Text
  targetConcept : Text
  sharedProperties : List Text
  similarity : Single
  confidence : Single
  insights : List Text
  deriving DecidableEq

namespace Analogy

/-- What an analogy with a concept suggests: the patterns it belongs to and what it bears
    on. -/
def insightsOf (d : Domain) (concept : Text) (shared : List Text) : List Text :=
  [Text.ofString "Treat the source like " ++ concept ++ Text.ofString " via " ++
    Text.join ", " shared] ++
  ((d.patterns.filter fun p => p.2.contains concept).map fun p =>
    Text.ofString "Pattern '" ++ p.1 ++ Text.ofString "' in " ++ d.name ++
      Text.ofString " may carry over") ++
  ((d.relationships.filter fun r => r.source == concept).map fun r =>
    r.source ++ Text.ofString " " ++ r.kind ++ Text.ofString " " ++ r.target ++
      Text.ofString "; look for the same relation")

/-- The analogy of a structure with a concept. -/
def of (d : Domain) (s : Signature) (c : Text × Concept) : Analogy :=
  let features := c.2.features
  let shared := sharedFeatures s.properties features
  let alike := Reasoning.similarity s.properties features
  { targetDomain := d.name
    targetConcept := c.1
    sharedProperties := shared
    similarity := alike
    confidence := Score.clamp (0.8 * alike + 0.1 * s.complexity +
      (if s.patterns.isEmpty then 0 else 0.1))
    insights := insightsOf d c.1 shared }

/-- The analogies with the concepts of a domain, the most confident first and then in the
    order of the concepts.  A similarity at or below the minimum is passed over; none is if the
    minimum is no number. -/
def ranked (c : Config) (d : Domain) (s : Signature) : List Analogy :=
  ((d.concepts.map (of d s)).filter fun a => !decide (a.similarity ≤ c.analogyMinSimilarity))
    |>.mergeSort fun a b => b.confidence ≤ a.confidence

def toJson (a : Analogy) : Json :=
  .ofMembers [("target_domain", .string a.targetDomain),
    ("target_concept", .string a.targetConcept),
    ("shared_properties", .ofTexts a.sharedProperties), ("similarity", .ofSingle a.similarity),
    ("confidence", .ofSingle a.confidence), ("insights", .ofTexts a.insights)]

end Analogy

/-- The analogies that are reported, and whether the structure had nothing to compare. -/
structure AnalogySearch where
  found : List Analogy
  isEmpty : Bool

namespace AnalogySearch

/-- Looks for analogies of a structure in the domain of a name. -/
def of (r : Registry) (c : Config) (source : Json) (toName : Text) : AnalogySearch :=
  match r.domain? (Domain.lookupName toName) with
  | none => ⟨[], false⟩
  | some d =>
    let s := Signature.ofJson source r.domains.items
    if s.properties.isEmpty then ⟨[], true⟩
    else ⟨(Analogy.ranked c d s).take c.maxAnalogies, false⟩

/-- The confidence of the best analogy. -/
def confidence (s : AnalogySearch) : Single :=
  ((s.found.head?).map (·.confidence)).getD Score.neutral

/-- Records the analogies and the call. -/
def recordMetrics (s : AnalogySearch) (m : Metrics) : Metrics :=
  (m.addAnalogies s.found.length).call .crossDomain s.confidence s.isEmpty

def toJson (s : AnalogySearch) : Json := .array (s.found.map Analogy.toJson)

end AnalogySearch

end Reasoning
