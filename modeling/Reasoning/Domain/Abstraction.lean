/-
  Features that several domains have in common.

  A concept is touched by some words if one of its features is related to one of them, and
  without words every concept is.  A feature that touched concepts of at least two domains
  carry is an abstraction of them.
-/
import Reasoning.Domain.Solution
import Reasoning.Metrics
import Reasoning.Text.Search

namespace Reasoning

/-- A feature, the domains that share it and their concepts that carry it. -/
structure Abstraction where
  id : Text
  pattern : Text
  domains : List Text
  /-- The concepts with the name of their domain in front. -/
  concepts : List Text
  description : Text
  confidence : Single
  deriving DecidableEq

namespace Abstraction

/-- The words of some concepts, each once. -/
def termsOf (concepts : List Text) : List Text := Text.distinct (concepts.flatMap Text.words)

/-- The concepts of a domain that some words touch. -/
def touched (d : Domain) (terms : List Text) : Dict Concept :=
  if terms.isEmpty then d.concepts else d.touched terms

/-- The concepts among `cs` that have a feature, as a property or as a member of the pattern
    of that name. -/
def carriers (d : Domain) (cs : Dict Concept) (feature : Text) : List Text :=
  Dict.keys (cs.filter fun c => c.2.properties.contains feature) ++
    ((Dict.get? d.patterns feature).getD []).filter (Dict.keys cs).contains

/-- The features that the touched concepts of some domains may carry, in their order. -/
def candidates (ds : List Domain) (terms : List Text) : List Text :=
  Dict.sorted (ds.flatMap fun d =>
    (touched d terms).flatMap (·.2.properties) ++ Dict.keys d.patterns)

/-- The carriers of a feature by domain; domains with none are left out. -/
def byDomain (ds : List Domain) (terms : List Text) (feature : Text) : Dict (List Text) :=
  Dict.ofList (ds.filterMap fun d =>
    match carriers d (touched d terms) feature with
    | [] => none
    | cs => some (d.name, cs))

/-- What is said of a feature: what the first domain says that makes something of it, if it
    says anything. -/
def describe (ds : List Domain) (feature : Text) (sharing : List Text) : Text :=
  let said := (ds.findSome? fun d => Dict.get? d.abstractions feature).getD []
  if said.isEmpty then
    Text.ofString "Shared " ++ feature ++ Text.ofString " structure across " ++
      Text.join ", " sharing
  else said

/-- The abstraction of a feature, if at least two domains share it. -/
def of? (ds : List Domain) (terms : List Text) (feature : Text) : Option Abstraction :=
  let sharing := byDomain ds terms feature
  if sharing.length < 2 then none
  else some
    { id := Text.ofString "abstraction_" ++ feature.replaceAll " " "_"
      pattern := feature
      domains := Dict.keys sharing
      concepts := Text.distinct (sharing.flatMap fun e =>
        e.2.map fun concept => e.1 ++ Text.ofString ":" ++ concept)
      description := describe ds feature (Dict.keys sharing)
      confidence := Score.clamp (0.4 + 0.5 *
        (.ofNat sharing.length / .ofNat ds.length)) }

def toJson (a : Abstraction) : Json :=
  .ofMembers [("id", .string a.id), ("pattern", .string a.pattern),
    ("domains", .ofTexts a.domains), ("concepts", .ofTexts a.concepts),
    ("description", .string a.description), ("confidence", .ofSingle a.confidence)]

end Abstraction

/-- The abstractions that were asked for, and whether there was nothing to go by. -/
structure AbstractionSearch where
  found : List Abstraction
  isEmpty : Bool

namespace AbstractionSearch

/-- The abstractions of some concepts in some domains, the most confident first and then in
    the order of the features.  Without names all domains count. -/
def of (r : Registry) (concepts names : List Text) : AbstractionSearch :=
  let ds := r.namedDomains names
  let terms := Abstraction.termsOf concepts
  let found := (Abstraction.candidates ds terms).filterMap (Abstraction.of? ds terms)
  ⟨found.mergeSort fun a b => b.confidence ≤ a.confidence, concepts.isEmpty || ds.isEmpty⟩

/-- The confidence of the best abstraction. -/
def confidence (s : AbstractionSearch) : Single :=
  ((s.found.head?).map (·.confidence)).getD Score.neutral

def recordMetrics (s : AbstractionSearch) (m : Metrics) : Metrics :=
  m.call .crossDomain s.confidence s.isEmpty

def toJson (s : AbstractionSearch) : Json := .array (s.found.map Abstraction.toJson)

end AbstractionSearch

end Reasoning
