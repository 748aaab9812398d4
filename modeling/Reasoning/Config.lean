/-
  Configuration of the engines.

  `Config.ofJson` reads any subset of the settings from a JSON object; a setting that is
  missing or of the wrong kind keeps its default, and settings that are scores are clamped.
  `Config.load` reads the text of a configuration file.
-/
import Reasoning.Score
import Reasoning.Json.Parser

namespace Reasoning

structure Config where
  /-- The certainty that premises need for a sound argument. -/
  soundnessThreshold : Single := 0.7
  /-- The rounds of forward chaining when an argument is checked. -/
  maxDerivationRounds : Nat := 3
  /-- The weight of the edge to a world that a possibility opens. -/
  possibilityWeight : Single := 0.8
  /-- The weight of the edge to a world that a necessity opens. -/
  necessityWeight : Single := 1.0
  /-- The product of strength and dominant probability that a collapse needs. -/
  collapseThreshold : Single := 0.5
  /-- Risks above this are reported. -/
  riskReportThreshold : Single := 0.3
  /-- The confidence of an option that states none. -/
  defaultOptionConfidence : Single := 0.7
  /-- The relevance that selects a domain. -/
  domainRelevanceThreshold : Single := 0.3
  /-- The number of analogies that are reported at most. -/
  maxAnalogies : Nat := 5
  /-- The similarity that an analogy exceeds. -/
  analogyMinSimilarity : Single := 0.2
  /-- The similarity that a pair of concepts exceeds to be mapped. -/
  transferSimilarityThreshold : Single := 0.25
  /-- The compatibility that a transfer needs. -/
  transferValidityThreshold : Single := 0.5
  verbose : Bool := false
  deriving DecidableEq

namespace Config

instance : Inhabited Config := ⟨{}⟩

/-- A setting as it is read, or its default. -/
def setting {α : Type} (j : Json) (key : Text) (read : Json → Option α) (default : α) : α :=
  ((j.member? key).bind read).getD default

/-- A setting that is a score. -/
def score (j : Json) (key : Text) (default : Single) : Single :=
  Score.clamp (setting j key Json.single? default)

/-- The settings of a JSON object; anything else has none. -/
def ofJson (j : Json) : Config where
  soundnessThreshold := score j "soundness_threshold" 0.7
  maxDerivationRounds := setting j "max_derivation_rounds" Json.count? 3
  possibilityWeight := score j "possibility_weight" 0.8
  necessityWeight := score j "necessity_weight" 1.0
  collapseThreshold := score j "collapse_threshold" 0.5
  riskReportThreshold := score j "risk_report_threshold" 0.3
  defaultOptionConfidence := score j "default_option_confidence" 0.7
  domainRelevanceThreshold := score j "domain_relevance_threshold" 0.3
  maxAnalogies := setting j "max_analogies" Json.count? 5
  analogyMinSimilarity := score j "analogy_min_similarity" 0.2
  transferSimilarityThreshold := score j "transfer_similarity_threshold" 0.25
  transferValidityThreshold := score j "transfer_validity_threshold" 0.5
  verbose := setting j "verbose" Json.bool? false

def toJson (c : Config) : Json :=
  .ofMembers [
    ("soundness_threshold", .ofSingle c.soundnessThreshold),
    ("max_derivation_rounds", .ofNat c.maxDerivationRounds),
    ("possibility_weight", .ofSingle c.possibilityWeight),
    ("necessity_weight", .ofSingle c.necessityWeight),
    ("collapse_threshold", .ofSingle c.collapseThreshold),
    ("risk_report_threshold", .ofSingle c.riskReportThreshold),
    ("default_option_confidence", .ofSingle c.defaultOptionConfidence),
    ("domain_relevance_threshold", .ofSingle c.domainRelevanceThreshold),
    ("max_analogies", .ofNat c.maxAnalogies),
    ("analogy_min_similarity", .ofSingle c.analogyMinSimilarity),
    ("transfer_similarity_threshold", .ofSingle c.transferSimilarityThreshold),
    ("transfer_validity_threshold", .ofSingle c.transferValidityThreshold),
    ("verbose", .bool c.verbose)]

/-- The configuration in the text of a file; a missing file or a text that is not JSON gives
    the defaults.  A text with a number that is too large is refused. -/
def load (file : Option Text) : Except Json.Fault Config :=
  match file.map Json.parse with
  | none | some (.error .malformed) => .ok {}
  | some (.error .numberTooLarge) => .error .numberTooLarge
  | some (.ok j) => .ok (ofJson j)

end Config

end Reasoning
