/-
  The structure of knowledge that is given as a JSON value.

  * `KnowledgeStructure.ofJson`: the concepts that the value names, and which of them
    mention which;
  * `Signature.ofJson`: the features by which the value is compared with concepts.
-/
import Reasoning.Domain.Similarity

namespace Reasoning

/-- The texts that are not empty, each at its first place only. -/
def Text.distinctNonempty (ts : List Text) : List Text :=
  Text.distinct (ts.filter fun t => !t.isEmpty)

/-- How complex a structure of so many parts is. -/
def partComplexity (parts : Nat) : Single := Binary.smaller 1 (0.1 * .ofNat parts)

/-! ## Concepts -/

/-- The concepts of some knowledge and the pairs of which the first mentions the second. -/
structure KnowledgeStructure where
  concepts : List Text
  relationships : List (Text × Text)
  complexity : Single
  deriving DecidableEq

namespace KnowledgeStructure

/-- The keys of an object are its concepts, and so are the texts of an array and the keywords
    of a text. -/
def conceptsOf : Json → List Text
  | .object ms => Text.distinctNonempty (Dict.keys ms)
  | .array es => Text.distinctNonempty (es.filterMap Json.text?)
  | .string s => s.keywords
  | _ => []

/-- The concepts that the value of a key mentions, once for every mention. -/
def mentions (concepts : List Text) (m : Text × Json) : List (Text × Text) :=
  match m.2 with
  | .string s => ((Text.words s).filter fun w => w != m.1 && concepts.contains w).map fun w =>
      (m.1, w)
  | _ => []

def ofJson (knowledge : Json) : KnowledgeStructure :=
  let concepts := conceptsOf knowledge
  let relationships := knowledge.members.flatMap (mentions concepts)
  ⟨concepts, relationships, partComplexity (concepts.length + relationships.length)⟩

/-- Pairs as arrays of two texts. -/
def pairsJson (ps : List (Text × Text)) : Json := .array (ps.map fun p => .ofTexts [p.1, p.2])

def toJson (s : KnowledgeStructure) : Json :=
  .ofMembers [("concepts", .ofTexts s.concepts), ("relationships", pairsJson s.relationships),
    ("complexity", .ofSingle s.complexity)]

end KnowledgeStructure

/-! ## Signatures -/

/-- What a JSON value is called. -/
def Json.kindName : Json → Text
  | .null => "null"
  | .bool _ => "boolean"
  | .int _ | .real _ => "number"
  | .string _ => "string"
  | .array _ => "array"
  | .object _ => "object"

/-- The features of a JSON value; `patterns` are those that some domain uses as a property or
    a pattern. -/
structure Signature where
  kind : Text
  properties : List Text
  complexity : Single
  patterns : List Text
  deriving DecidableEq

namespace Signature

/-- The keywords of a text; other values have none. -/
def textKeywords (j : Json) : List Text := (j.text?.map Text.keywords).getD []

/-- The keywords of a text or of the texts of an array. -/
def valueKeywords (j : Json) : List Text :=
  textKeywords j ++ (j.elements?.getD []).flatMap textKeywords

/-- All features of a value, with repeats: the words of keys and the keywords of texts. -/
def rawFeatures : Json → List Text
  | .object ms => ms.flatMap fun m => Text.words m.1 ++ valueKeywords m.2
  | .array es => es.flatMap fun e => textKeywords e ++ e.members.flatMap fun m => Text.words m.1
  | j => textKeywords j

/-- The properties and patterns that domains use. -/
def tags (ds : List Domain) : List Text :=
  ds.flatMap fun d => d.concepts.flatMap (·.2.properties) ++ Dict.keys d.patterns

def ofJson (source : Json) (ds : List Domain) : Signature :=
  let properties := Text.distinctNonempty (rawFeatures source)
  ⟨source.kindName, properties, partComplexity properties.length,
    properties.filter (tags ds).contains⟩

def toJson (s : Signature) : Json :=
  .ofMembers [("type", .string s.kind), ("properties", .ofTexts s.properties),
    ("complexity", .ofSingle s.complexity), ("patterns", .ofTexts s.patterns)]

end Signature

end Reasoning
