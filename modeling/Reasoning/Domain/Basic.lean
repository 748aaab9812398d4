/-
  Domains of knowledge and mappings between them.
-/
import Reasoning.Json.Basic

namespace Reasoning

/-- How one concept of a domain bears on another. -/
structure Relationship where
  source : Text
  target : Text
  kind : Text
  deriving DecidableEq

namespace Relationship

def toJson (r : Relationship) : Json :=
  .ofMembers [("from", .string r.source), ("to", .string r.target), ("kind", .string r.kind)]

def ofJson (j : Json) : Relationship where
  source := j.textField "from" []
  target := j.textField "to" []
  kind := j.textField "kind" []

end Relationship

/-- A concept of a domain: what it calls itself, and its properties. -/
structure Concept where
  name : Text
  properties : List Text
  deriving DecidableEq

/-- A domain: its concepts, how they bear on each other, the patterns they belong to, and what
    the domain makes of its abstractions.  The name that a concept is found by need not be its
    own. -/
structure Domain where
  name : Text
  concepts : Dict Concept
  relationships : List Relationship
  patterns : Dict (List Text)
  abstractions : Dict Text
  deriving DecidableEq

namespace Domain

def toJson (d : Domain) : Json :=
  .ofMembers [("name", .string d.name),
    ("concepts", .ofDict (fun c : Concept => .ofTexts c.properties) d.concepts),
    ("relationships", .array (d.relationships.map Relationship.toJson)),
    ("patterns", .ofDict .ofTexts d.patterns),
    ("abstractions", .ofDict .string d.abstractions)]

/-- A concept has the name that it is found by. -/
def ofJson (j : Json) : Domain where
  name := j.textField "name" []
  concepts := (j.dictField "concepts" Json.texts).map fun c => (c.1, ⟨c.1, c.2⟩)
  relationships := (j.listField "relationships").map Relationship.ofJson
  patterns := j.dictField "patterns" Json.texts
  abstractions := j.dictField "abstractions" fun v => v.text?.getD []

end Domain

/-- A concept of one domain that corresponds to a concept of another. -/
structure Mapping where
  sourceDomain : Text
  targetDomain : Text
  sourceConcept : Text
  targetConcept : Text
  similarity : Single
  confidence : Single
  reasoning : Text
  deriving DecidableEq

namespace Mapping

def toJson (m : Mapping) : Json :=
  .ofMembers [("source_domain", .string m.sourceDomain),
    ("target_domain", .string m.targetDomain), ("source_concept", .string m.sourceConcept),
    ("target_concept", .string m.targetConcept), ("similarity", .ofSingle m.similarity),
    ("confidence", .ofSingle m.confidence), ("reasoning", .string m.reasoning)]

def ofJson (j : Json) : Mapping where
  sourceDomain := j.textField "source_domain" []
  targetDomain := j.textField "target_domain" []
  sourceConcept := j.textField "source_concept" []
  targetConcept := j.textField "target_concept" []
  similarity := j.anyNumberField "similarity" 0
  confidence := j.anyNumberField "confidence" 0
  reasoning := j.textField "reasoning" []

end Mapping

end Reasoning
