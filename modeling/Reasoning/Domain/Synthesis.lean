/-
  Bringing insights of several domains together.

  An insight is at home in the domains that its keywords hit.  Two insights of different
  homes that speak about the same thing complement each other.
-/
import Reasoning.Domain.Solution
import Reasoning.Domain.Structure
import Reasoning.Metrics

namespace Reasoning

/-- An insight with its keywords and the domains where it is at home. -/
structure Insight where
  text : Text
  terms : List Text
  homes : List Text
  deriving DecidableEq

namespace Insight

def of (ds : List Domain) (text : Text) : Insight :=
  ⟨text, text.keywords, (ds.filter fun d => d.hits text.keywords != 0).map (·.name)⟩

/-- Insights of different homes that have related keywords. -/
def complements (a b : Insight) : Bool :=
  !a.homes.isEmpty && !b.homes.isEmpty && a.homes != b.homes && Text.anyRelated a.terms b.terms

end Insight

/-- All pairs of an element and a later one. -/
def laterPairs {α : Type} : List α → List (α × α)
  | [] => []
  | a :: as => as.map (fun b => (a, b)) ++ laterPairs as

/-- What comes of some insights. -/
structure InsightSynthesis where
  summary : Text
  byDomain : Dict (List Text)
  /-- The insights that are at home somewhere. -/
  incorporated : List Text
  complementary : List (Text × Text)
  issues : List Text
  valid : Bool
  confidence : Single
  deriving DecidableEq

namespace InsightSynthesis

/-- The insights at home in each domain; domains without any are left out. -/
def homesOf (ds : List Domain) (insights : List Insight) : Dict (List Text) :=
  Dict.ofList (ds.filterMap fun d =>
    match insights.filter fun i => i.homes.contains d.name with
    | [] => none
    | found => some (d.name, found.map (·.text)))

/-- A share in whole percents, a half rounded up. -/
def percent (ratio : Single) : Text := .ofNat (ratio * 100 + 0.5).truncate.toNat

/-- What keeps the insights from covering the domains. -/
def issuesOf (insights : List Text) (ds : List Domain) (byDomain : Dict (List Text))
    (ratio : Single) : List Text :=
  (if insights.isEmpty then [Text.ofString "No insights to synthesize"] else []) ++
  ((ds.filter fun d => !Dict.contains byDomain d.name).map fun d =>
    Text.ofString "No insight addresses " ++ d.name) ++
  (if !insights.isEmpty && decide (ratio < 0.8) then
    [Text.ofString "Only " ++ percent ratio ++ Text.ofString "% of insights incorporated"]
  else [])

/-- A share of a whole, zero if there is no whole. -/
def share (part whole : Nat) : Single := if whole = 0 then 0 else .ofNat part / .ofNat whole

/-- Brings insights together over some domains, over all if no name is given. -/
def of (r : Registry) (insights names : List Text) : InsightSynthesis :=
  let ds := r.namedDomains names
  let read := insights.map (Insight.of ds)
  let byDomain := homesOf ds read
  let incorporated := (read.filter fun i => !i.homes.isEmpty).map (·.text)
  let complementary := ((laterPairs read).filter fun p => p.1.complements p.2).map fun p =>
    (p.1.text, p.2.text)
  let ratio := share incorporated.length insights.length
  let issues := issuesOf insights ds byDomain ratio
  { summary := Text.ofString "Synthesized " ++ Text.ofNat incorporated.length ++
      Text.ofString " of " ++ Text.ofNat insights.length ++
      Text.ofString " insight(s) across " ++ Text.ofNat byDomain.length ++
      Text.ofString " of " ++ Text.ofNat ds.length ++ Text.ofString " domain(s)" ++
      (if complementary.isEmpty then []
        else Text.ofString "; " ++ Text.ofNat complementary.length ++
          Text.ofString " complementary pair(s)")
    byDomain := byDomain
    incorporated := incorporated
    complementary := complementary
    issues := issues
    valid := issues.isEmpty
    confidence := Score.clamp (0.4 * ratio + 0.4 * share byDomain.length ds.length +
      (if issues.isEmpty then 0.2 else 0)) }

/-- Records the call for some insights. -/
def recordMetrics (s : InsightSynthesis) (insights : List Text) (m : Metrics) : Metrics :=
  m.call .crossDomain s.confidence insights.isEmpty

def toJson (s : InsightSynthesis) : Json :=
  .ofMembers [("summary", .string s.summary), ("by_domain", .ofDict .ofTexts s.byDomain),
    ("incorporated", .ofTexts s.incorporated),
    ("complementary", KnowledgeStructure.pairsJson s.complementary),
    ("issues", .ofTexts s.issues), ("valid", .bool s.valid),
    ("confidence", .ofSingle s.confidence)]

end InsightSynthesis

end Reasoning
