/-
  Results as text for people to read.
-/
import Reasoning.Engine

namespace Reasoning.CommandLine

/-! ## Lines -/

/-- A line of text from its parts. -/
def line (parts : List Text) : Text := parts.flatten ++ [10]

/-- The rule under a title. -/
def underline : Text := line ["═══════════════════════════════"]

/-- Space that fills a text up to a width, on its right. -/
def padRight (width : Nat) (t : Text) : Text :=
  t ++ List.replicate (width - t.length) ' '.toUInt8

/-- Space that fills a text up to a width, on its left. -/
def padLeft (width : Nat) (t : Text) : Text :=
  List.replicate (width - t.length) ' '.toUInt8 ++ t

/-- A list under a title, nothing if it is empty. -/
def listing (title : Text) (items : List Text) : Text :=
  if items.isEmpty then []
  else line [] ++ line [title, ":"] ++ items.flatMap fun i => line ["  - ", i]

/-! ## Reports -/

/-- A step of a proof. -/
def stepReport (s : Step) : Text :=
  let refs := if s.refs.isEmpty then []
    else Text.ofString "; from" ++ s.refs.flatMap fun r => Text.ofString " " ++ Text.ofNat r
  line ["  ", padLeft 3 (Text.ofNat s.seq), ". [", s.kind.name, "] ", s.content, "  (",
    s.justification, refs, ")"]

def resultReport (r : Result) : Text :=
  line [r.mode.name, " reasoning"] ++ underline ++
  line ["Confidence:  ", r.confidence.fixed 3] ++
  line ["Uncertainty: ", r.uncertainty.level.fixed 3] ++
  (if r.noEvidence then line ["(no evidence)"] else []) ++
  listing "Conclusions" r.conclusions ++
  listing "Alternatives" r.alternatives ++
  (if r.proof.isEmpty then []
    else line [] ++ line ["Proof:"] ++ r.proof.steps.flatMap stepReport) ++
  listing "Uncertainty sources" r.uncertainty.sources ++
  listing "Mitigations" r.uncertainty.mitigations ++
  listing "Evidence" r.evidence

/-- What one domain says, and whether it is valid. -/
def domainReport (s : DomainSolution) (v : DomainValidation) : Text :=
  line ["  ", s.domain, ": ", s.approach, " [", (if v.valid then "valid" else "weak"), ", ",
    v.confidence.fixed 3, "]"]

def solutionReport (s : CrossDomainSolution) : Text :=
  line ["Cross-domain solution"] ++ underline ++
  line ["Domains:    ", Text.join ", " s.domains,
    (if s.defaultDomains then " (default)" else [])] ++
  line ["Confidence: ", s.confidence.fixed 3] ++
  line ["Approach:   ", s.unified.approach] ++
  listing "Insights" s.unified.insights ++
  line [] ++ line ["Per domain:"] ++
  (s.solutions.zipWith domainReport s.validations).flatten ++
  listing "Unknown domains" s.unknownDomains

/-- A transfer, up to the knowledge that was transferred. -/
def transferReport (t : Transfer) : Text :=
  line ["Transfer ", t.sourceDomain, " -> ", t.targetDomain, ": ",
    (if t.success then "succeeded" else "failed")] ++
  line ["Compatibility: ", t.compatibility.fixed 3] ++
  (t.conceptMap.flatMap fun e =>
    line ["  ", e.1, " -> ", e.2, " (", ((Dict.get? t.similarity e.1).getD 0).fixed 3, ")"]) ++
  listing "Issues" (t.issues.map Transfer.Issue.message)

def analogyReport (a : Analogy) : Text :=
  line [a.targetDomain, ":", a.targetConcept, "  similarity ", a.similarity.fixed 3,
    ", confidence ", a.confidence.fixed 3] ++
  a.insights.flatMap fun i => line ["    ", i]

/-- The analogies that were found in the domain of a name. -/
def analogiesReport (target : Text) (s : AnalogySearch) : Text :=
  if s.found.isEmpty then line ["No analogies in ", target]
  else s.found.flatMap analogyReport

def metricsReport (m : Metrics) : Text :=
  let number (n : UInt64) : Text := Text.ofNat n.toNat
  line ["Reasoning Metrics"] ++ underline ++
  line ["Calls:        ", number m.totalCalls, " (", number m.emptyInputs, " empty)"] ++
  (Mode.all.flatMap fun mode =>
    line ["  ", padRight 14 mode.name, number (m.modes.get mode).count,
      " call(s), mean confidence ", (m.modes.get mode).average.fixed 3]) ++
  line ["Rules:        ", number m.rulesApplied, " applied, ", number m.rulesSkipped,
    " skipped"] ++
  line ["Worlds:       ", number m.worldsExplored] ++
  line ["Bayesian:     ", number m.bayesianUpdates] ++
  line ["Measurements: ", number m.measurements] ++
  line ["Options:      ", number m.optionsAnalyzed] ++
  line ["Transfers:    ", number m.transfersSucceeded, "/", number m.transfersAttempted] ++
  line ["Analogies:    ", number m.analogiesFound]

/-- The catalogue of a registry. -/
def registryReport (r : Registry) : Text :=
  line ["Registry"] ++ underline ++
  ((Dict.ofList (Collection.all.map fun c => (c.name, r.count c))).flatMap fun e =>
    line ["  ", padRight 18 e.1, Text.ofNat e.2]) ++
  line [] ++ line ["Axioms:"] ++
  (r.axioms.items.flatMap fun a => line ["  ", padRight 24 a.id, a.statement]) ++
  line [] ++ line ["Inference rules:"] ++
  (r.inferenceRules.items.flatMap fun rule =>
    line ["  ", padRight 24 rule.id, Text.join ", " rule.antecedents, "  =>  ",
      rule.consequent]) ++
  line [] ++ line ["Modal operators:"] ++
  (r.modalOperators.items.flatMap fun o => line ["  ", o.symbol, "  ", o.name]) ++
  line [] ++ line ["Decision rules:"] ++
  (r.decisionRules.items.flatMap fun rule => line ["  ", rule.id]) ++
  line [] ++ line ["Domains: ", Text.join ", " r.domainNames]

/-- The catalogue of a registry as JSON. -/
def registryJson (r : Registry) : Json :=
  let rule (rule : InferenceRule) : Json :=
    .ofMembers [("id", .string rule.id), ("name", .string rule.name),
      ("kind", .string rule.kind.name), ("antecedents", .ofTexts rule.antecedents),
      ("consequent", .string rule.consequent), ("confidence", .ofSingle rule.confidence)]
  .ofMembers [("summary", r.summary),
    ("axioms", .array (r.axioms.items.map Axiom.toJson)),
    ("inference_rules", .array (r.inferenceRules.items.map rule)),
    ("domains", .ofTexts r.domainNames)]

end Reasoning.CommandLine
