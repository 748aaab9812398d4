/-
  One problem seen from several domains.

  Every selected domain contributes the concepts that the problem touches with the features
  they carry.  What at least two domains share unifies them, and every contribution is
  validated against what is shared.

  * `Registry.resolveDomains`: the domains that names stand for;
  * `DomainSolution.of`, `UnifiedSolution.of`, `DomainValidation.of`: the three stages;
  * `CrossDomainSolution.of`: the whole of them.
-/
import Reasoning.Config
import Reasoning.Domain.Similarity
import Reasoning.Numeric.Fixed
import Reasoning.Registry.Basic

namespace Reasoning

/-! ## Naming domains -/

/-- The domain of a name, with whether it is known. -/
def Registry.domain? (r : Registry) (name : Text) : Option Domain := r.domains.find? name

/-- How a domain is looked up, whatever the case and the space around it. -/
def Domain.lookupName (name : Text) : Text := name.trim.lower

/-- Domains that names stand for, and names that stand for none. -/
structure Resolved where
  domains : List Domain
  unknown : List Text

/-- Resolves names in order: a domain is taken once, an empty name is passed over, and a name
    that is unknown is reported as often as it comes. -/
def Registry.resolveDomains (r : Registry) (names : List Text) : Resolved :=
  names.foldl
    (fun found raw =>
      let name := Domain.lookupName raw
      if name.isEmpty || found.domains.any (·.name == name) then found
      else match r.domain? name with
        | some d => { found with domains := found.domains ++ [d] }
        | none => { found with unknown := found.unknown ++ [name] })
    ⟨[], []⟩

/-- The domains that names stand for, all domains if no name is given. -/
def Registry.namedDomains (r : Registry) (names : List Text) : List Domain :=
  if names.isEmpty then r.domains.items else (r.resolveDomains names).domains

/-! ## Solutions -/

/-- What one domain has to say about a problem. -/
structure DomainSolution where
  domain : Text
  /-- The concepts that the problem touches, by their own names. -/
  concepts : List Text
  /-- The properties of the concepts and the patterns they belong to. -/
  patterns : List Text
  approach : Text
  confidence : Single
  deriving DecidableEq

namespace DomainSolution

/-- The solution of a domain.  If the problem touches no concept, the first two stand in.  The
    members of patterns are looked for among the own names of the concepts. -/
def of (d : Domain) (terms : List Text) : DomainSolution :=
  let touched := d.touched terms
  let isFallback := touched.isEmpty
  let used := if isFallback then d.concepts.take 2 else touched
  let concepts := used.map (·.2.name)
  let shared := d.patterns.filter fun p => p.2.any concepts.contains
  { domain := d.name
    concepts := concepts
    patterns := Dict.sorted (used.flatMap (·.2.properties) ++ Dict.keys shared)
    approach := Text.ofString "Apply " ++ d.name ++ Text.ofString " concepts (" ++
      Text.join ", " concepts ++ Text.ofString ")" ++
      (if isFallback then Text.ofString " as a general frame" else [])
    confidence := if isFallback then 0.4
      else Binary.smaller 0.9 (0.5 + 0.1 * .ofNat used.length) }

def toJson (s : DomainSolution) : Json :=
  .ofMembers [("domain", .string s.domain), ("concepts", .ofTexts s.concepts),
    ("patterns", .ofTexts s.patterns), ("approach", .string s.approach),
    ("confidence", .ofSingle s.confidence)]

end DomainSolution

/-! ## Unification -/

/-- What the solutions of several domains have in common. -/
structure UnifiedSolution where
  approach : Text
  /-- For every common pattern, the domains that carry it. -/
  insights : List Text
  commonPatterns : List Text
  confidence : Single
  deriving DecidableEq

namespace UnifiedSolution

/-- The solutions that carry a pattern. -/
def carriers (ss : List DomainSolution) (pattern : Text) : List DomainSolution :=
  ss.filter fun s => s.patterns.contains pattern

/-- The patterns that at least two solutions carry, the most widely carried first, then by
    bytes. -/
def shared (ss : List DomainSolution) : List Text :=
  let counted := (Dict.sorted (ss.flatMap (·.patterns))).map fun p => (p, (carriers ss p).length)
  ((counted.filter fun c => 2 ≤ c.2).mergeSort fun a b => b.2 ≤ a.2).map (·.1)

def of (ss : List DomainSolution) : UnifiedSolution :=
  let common := shared ss
  let names := Text.join ", " (ss.map (·.domain))
  { approach :=
      if common.isEmpty then
        Text.ofString "Combine the " ++ names ++ Text.ofString " solutions independently"
      else
        Text.ofString "Unify " ++ names ++ Text.ofString " through shared structure: " ++
          Text.join ", " (common.take 3)
    insights := common.map fun p =>
      Text.ofString "'" ++ p ++ Text.ofString "' appears in " ++
        Text.join ", " ((carriers ss p).map (·.domain))
    commonPatterns := common
    confidence := Score.clamp (Score.mean (ss.map (·.confidence)) +
      0.05 * .ofNat (min 4 common.length)) }

/-- What is said when no domain is known. -/
def none : UnifiedSolution := ⟨"No domain knowledge available", [], [], 0⟩

def toJson (u : UnifiedSolution) : Json :=
  .ofMembers [("approach", .string u.approach), ("insights", .ofTexts u.insights),
    ("common_patterns", .ofTexts u.commonPatterns), ("confidence", .ofSingle u.confidence)]

end UnifiedSolution

/-! ## Validation -/

/-- Whether a solution carries enough of what the others share. -/
structure DomainValidation where
  domain : Text
  valid : Bool
  confidence : Single
  issues : List Text
  deriving DecidableEq

namespace DomainValidation

/-- The share of the common patterns that a solution carries, a half if there are none. -/
def coverage (common patterns : List Text) : Single :=
  if common.isEmpty then 0.5
  else .ofNat (common.countP patterns.contains) / .ofNat common.length

def of (s : DomainSolution) (common : List Text) : DomainValidation :=
  let confidence := Score.clamp (0.5 * s.confidence + 0.5 * coverage common s.patterns)
  let valid := decide ((0.5 : Single) ≤ confidence)
  { domain := s.domain
    valid := valid
    confidence := confidence
    issues :=
      (if common.isEmpty then [Text.ofString "No common pattern to validate against"]
        else if common.any s.patterns.contains then []
        else [Text.ofString "Shares no pattern with the other domains"]) ++
      (if valid then [] else [Text.ofString "Confidence " ++ confidence.fixed 2 ++
        Text.ofString " below 0.50"]) }

def toJson (v : DomainValidation) : Json :=
  .ofMembers [("domain", .string v.domain), ("valid", .bool v.valid),
    ("confidence", .ofSingle v.confidence), ("issues", .ofTexts v.issues)]

end DomainValidation

/-! ## All domains together -/

/-- A problem seen from several domains. -/
structure CrossDomainSolution where
  problem : Text
  domains : List Text
  unknownDomains : List Text
  /-- No domain was relevant or known, so the usual ones were taken. -/
  defaultDomains : Bool
  relevance : Dict Single
  solutions : List DomainSolution
  unified : UnifiedSolution
  validations : List DomainValidation
  confidence : Single
  deriving DecidableEq

namespace CrossDomainSolution

/-- The domains that a problem is seen from. -/
structure Selection where
  domains : List Domain
  unknown : List Text
  relevance : Dict Single
  isDefault : Bool

/-- The relevance of each domain by its name. -/
def relevanceOf (ds : List Domain) (terms : List Text) : Dict Single :=
  Dict.ofList (ds.map fun d => (d.name, d.relevance terms))

/-- Selects the named domains, or those that are relevant enough if no name is given;
    mathematics and physics if there are none. -/
def select (r : Registry) (c : Config) (terms names : List Text) : Selection :=
  let found := r.resolveDomains names
  let candidates := if names.isEmpty then r.domains.items else found.domains
  let selected :=
    if names.isEmpty then
      candidates.filter fun d => c.domainRelevanceThreshold < d.relevance terms
    else candidates
  { domains :=
      if selected.isEmpty then
        (r.resolveDomains (Text.ofStrings ["mathematics", "physics"])).domains
      else selected
    unknown := found.unknown
    relevance := relevanceOf candidates terms
    isDefault := selected.isEmpty }

/-- Solves a problem in some domains, none for those that are relevant to it. -/
def of (r : Registry) (c : Config) (problem : Text) (names : List Text) : CrossDomainSolution :=
  let terms := problem.keywords
  let s := select r c terms names
  let solutions := s.domains.map fun d => DomainSolution.of d terms
  let unified := if solutions.isEmpty then .none else UnifiedSolution.of solutions
  let validations := solutions.map fun s => DomainValidation.of s unified.commonPatterns
  { problem := problem
    domains := s.domains.map (·.name)
    unknownDomains := s.unknown
    defaultDomains := s.isDefault
    relevance := s.relevance
    solutions := solutions
    unified := unified
    validations := validations
    confidence := if solutions.isEmpty then Score.neutral
      else Score.clamp (Score.mean (validations.map (·.confidence))) }

/-- There was nothing to solve, or nobody to solve it. -/
def isEmpty (s : CrossDomainSolution) : Bool := s.solutions.isEmpty || !s.problem.hasAlnum

def toJson (s : CrossDomainSolution) : Json :=
  .ofMembers [("problem", .string s.problem), ("domains", .ofTexts s.domains),
    ("unknown_domains", .ofTexts s.unknownDomains),
    ("default_domains", .bool s.defaultDomains),
    ("relevance", .ofDict .ofSingle s.relevance),
    ("solutions", .array (s.solutions.map DomainSolution.toJson)),
    ("unified", s.unified.toJson),
    ("validations", .array (s.validations.map DomainValidation.toJson)),
    ("confidence", .ofSingle s.confidence)]

end CrossDomainSolution

end Reasoning
