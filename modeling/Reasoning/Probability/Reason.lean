/-
  Probabilistic reasoning about a single claim.

  The claim starts from what the text says, or from one half.  A prior in the context is
  updated by Bayes' rule and takes its place.  The words of the text choose a distribution,
  whose variance adds to the uncertainty.
-/
import Reasoning.Extraction
import Reasoning.Metrics
import Reasoning.Numeric.Fixed
import Reasoning.Probability.Cue
import Reasoning.Registry.Basic
import Reasoning.Result

namespace Reasoning.Probability

/-! ## Distributions -/

/-- The number of keywords of a distribution among some words. -/
def hits (ws : List Text) (d : Distribution) : Nat :=
  d.keywords.countP fun k => ws.contains k.lower

/-- The first of the distributions with the most hits, if one has any. -/
def mostHits? (ws : List Text) (ds : List Distribution) : Option Distribution :=
  ds.foldl
    (fun best d => if (best.map (hits ws)).getD 0 < hits ws d then some d else best) none

/-- The distribution that the words of an input ask for; without such words the uniform one,
    or else the first there is. -/
def distributionFor? (input : Text) (ds : List Distribution) : Option Distribution :=
  mostHits? input.words ds <|> ds.find? (fun d => d.id == Text.ofString "uniform_0_1") <|> ds.head?

/-- What an answer says of its distribution. -/
def describe (d : Distribution) : Json :=
  .ofMembers [("id", .string d.id), ("name", .string d.name), ("kind", .string d.kind.name),
    ("parameters", .ofDict .ofSingle d.parameters),
    ("support", .array [.ofSingle d.supportLow, .ofSingle d.supportHigh]),
    ("mean", .ofSingle d.mean), ("variance", .ofSingle d.variance)]

/-! ## Estimates -/

/-- Where an estimate comes from. -/
inductive Source where
  | baseline
  | stated
  | verbal
  | bayesian
  deriving Repr, DecidableEq

def Source.name : Source → Text
  | baseline => "baseline"
  | stated => "stated"
  | verbal => "verbal"
  | bayesian => "bayesian"

/-- What the text says of the claim. -/
def cue (input : Text) : Single × Source :=
  match statedProbability? input with
  | some p => (p, .stated)
  | none => match verbalProbability? input with
    | some p => (p, .verbal)
    | none => (baseline, .baseline)

/-- A prior with the numbers for its update. -/
structure Prior where
  prior : Single
  likelihood : Single
  evidence : Single
  deriving DecidableEq

namespace Prior

/-- The prior of a context, if it has one; what else is missing is one half. -/
def ofContext? (context : Json) : Option Prior :=
  if (context.member? "priorProbability").any Json.isNumber then
    some ⟨Score.clamp (context.anyNumberField "priorProbability" baseline),
      Score.clamp (context.anyNumberField "likelihood" 0.5), context.anyNumberField "evidence" 0.5⟩
  else none

def posterior? (p : Prior) : Option Single := bayesPosterior? p.prior p.likelihood p.evidence

end Prior

/-- A number with three decimals; what goes beyond 31 bytes is cut. -/
def format (x : Single) : Text := (x.fixed 3).take 31

/-- The calculation that a proof states for an update. -/
def Prior.calculation (p : Prior) (posterior : Single) : Text :=
  Text.ofString "P(H|E) = " ++ format p.likelihood ++ Text.ofString " * " ++ format p.prior ++
    Text.ofString " / " ++ format p.evidence ++ Text.ofString " = " ++ format posterior

/-- What is known of the claim at the end: its probability and where that comes from. -/
structure Estimate where
  cue : Single × Source
  prior : Option Prior
  deriving DecidableEq

namespace Estimate

def ofInput (input : Text) (context : Json) : Estimate :=
  ⟨Probability.cue input, Prior.ofContext? context⟩

def posterior? (e : Estimate) : Option Single := e.prior.bind Prior.posterior?

def probability (e : Estimate) : Single := e.posterior?.getD e.cue.1

def source (e : Estimate) : Source := if e.posterior?.isSome then .bayesian else e.cue.2

/-- A prior that could not be updated. -/
def isSkipped (e : Estimate) : Bool := e.prior.isSome && e.posterior?.isNone

/-- How far the probability is from one half, on a scale from zero to one. -/
def distance (e : Estimate) : Single := (e.probability - 0.5).abs * 2

end Estimate

/-! ## The answer -/

/-- The conclusion in words. -/
def statement (p confidence : Single) : Text :=
  Text.ofString "The claim is " ++ bucket p ++ Text.ofString " (p = " ++ format p ++
    Text.ofString ", confidence: " ++ descriptor confidence ++ Text.ofString ")"

/-- The proof: premises, the cue they give, the update if there is one, and the conclusion. -/
def proof (ps : List Proposition) (e : Estimate) (confidence : Single) : Ledger :=
  let l := ps.foldl (fun l p => l.push .premise p.text "given" p.certainty []) Ledger.empty
  let (p, source) := e.cue
  let l := l.push .inference (Text.ofString "P(claim) = " ++ format p)
    (Text.ofString "prior from " ++ source.name) (1 - (p - 0.5).abs)
    (List.range' 1 ps.length)
  let l := match e.prior, e.posterior? with
    | some prior, some q =>
      l.push .inference (prior.calculation q) "Bayes' rule" 0.9 [l.size]
    | _, _ => l
  l.push .conclusion (statement e.probability confidence) "probability bucket" confidence [l.size]

/-- What makes an answer uncertain: a claim near one half, a wide distribution, doubt and
    hedges in the input. -/
def uncertainty (input : Text) (e : Estimate) (d : Option Distribution) : Uncertainty :=
  let hedged := input.containsWord "possibly" || input.containsWord "maybe"
  let explicit := input.containsWord "probability" || input.containsWord "chance"
  let question := input.contains "?"
  let spread := match d with
    | some d => (1 : Single).smaller d.variance
    | none => 0.25
  let listed (b : Bool) (t : String) : List Text := if b then [Text.ofString t] else []
  { level := Score.clamp (0.4 * (1 - e.distance) + 0.3 * spread +
      (if input.signalsDoubt then 0.2 else 0) + (if hedged then 0.1 else 0))
    sources := listed e.isSkipped "Invalid evidence probability; update skipped" ++
      listed question "Question format indicates uncertainty" ++
      listed hedged "Qualifiers indicate uncertainty" ++
      listed explicit "Explicit probability references"
    mitigations := listed e.isSkipped "Supply evidence probability greater than zero" ++
      listed question "Gather additional evidence to resolve questions" ++
      listed hedged "Strengthen claims with empirical data" }

def evidence (e : Estimate) : List Text :=
  match e.source with
  | .bayesian => [Text.ofString "Bayesian update from context prior"]
  | .baseline => [Text.ofString "No probability cues; baseline applies"]
  | s => [Text.ofString "Probability " ++ s.name ++ Text.ofString " in input"]

def details (e : Estimate) (d : Option Distribution) (confidence : Single) : Json :=
  let numbers := match e.prior with
    | some p => [("prior", Json.ofSingle p.prior), ("likelihood", .ofSingle p.likelihood),
        ("evidence", .ofSingle p.evidence)]
    | none => []
  .ofMembers (numbers ++ (e.posterior?.map fun q => ("posterior", Json.ofSingle q)).toList ++
    [("probability", .ofSingle e.probability), ("source", .string e.source.name),
     ("bucket", .string (bucket e.probability)),
     ("descriptor", .string (descriptor confidence))] ++
    (d.map fun d => ("distribution", describe d)).toList)

/-- The answer to an input with a claim or a prior. -/
def answer (r : Registry) (input : Text) (ps : List Proposition) (e : Estimate) : Result :=
  let d := distributionFor? input r.distributions.items
  let confidence := Score.clamp (0.4 + 0.5 * e.distance + 0.1 * input.lengthFactor)
  { mode := .probabilistic
    confidence := confidence
    conclusions := [statement e.probability confidence]
    proof := proof ps e confidence
    alternatives :=
      (Text.ofString "The claim is false (p = " ++ format (1 - e.probability) ++
        Text.ofString ")") ::
      (if e.distance < 0.2 then [Text.ofString "Evidence does not favour either outcome"] else [])
    uncertainty := uncertainty input e d
    evidence := evidence e
    noEvidence := false
    details := details e d confidence }

/-- Reasons from an input and its context, and records the call. -/
def reason (r : Registry) (m : Metrics) (input : Text) (context : Json) : Result × Metrics :=
  let ps := (Extraction.extract input context).premises
  let e := Estimate.ofInput input context
  if ps.isEmpty && e.prior.isNone then
    let result := Result.neutral .probabilistic "No claim found in input"
      (.ofMembers [("probability", .ofSingle baseline), ("source", .ofText "baseline")]) []
    (result, m.call .probabilistic result.confidence true)
  else
    let result := answer r input ps e
    let m := if e.posterior?.isSome then m.addBayesianUpdate else m
    (result, m.call .probabilistic result.confidence false)

end Reasoning.Probability
