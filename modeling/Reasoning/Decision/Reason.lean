/-
  Decisions: choices ranked by every rule of the registry.

  The choices are those of the text, of the context and of the registry, each name once.
  Every rule ranks them; the most confident rule decides, the earliest of several.
-/
import Reasoning.Config
import Reasoning.Decision.Gathering
import Reasoning.Decision.Verdict
import Reasoning.Extraction
import Reasoning.Metrics
import Reasoning.Numeric.Fixed
import Reasoning.Registry.Basic
import Reasoning.Result

namespace Reasoning.Decision

/-! ## Gathering -/

/-- The choices of a call; a name that is taken is dropped with all that is said of it. -/
def choices (r : Registry) (c : Config) (input : Text) (context : Json) : List (Choice Single) :=
  distinctBy (·.name.lower) (Choice.ofInput input c.defaultOptionConfidence ++
    Choice.ofContext context c.defaultOptionConfidence ++ r.choices.items)

/-- The criteria of a call, each name once. -/
def criteria (r : Registry) (input : Text) (context : Json) : List (Criterion Single) :=
  distinctBy (·.name.lower) (Criterion.ofInput input ++ Criterion.ofContext context ++
    r.criteria.items)

/-! ## Describing -/

/-- An attribute in words.  Its key ends at a zero byte, and what goes beyond 47 bytes is
    cut. -/
def describeAttribute (a : Text × Single) : Text :=
  (Text.ofString " " ++ a.1.takeWhile (· != 0) ++ Text.ofString "=" ++ a.2.fixed 2).take 47

/-- Attributes under a label, nothing if there are none. -/
def describeAttributes (label : Text) (attributes : Dict Single) : Text :=
  if attributes.isEmpty then []
  else
    Text.ofString "; " ++ label ++ Text.ofString ":" ++ attributes.flatMap describeAttribute

def describe (c : Choice Single) : Text :=
  Text.ofString "Option " ++ c.name ++ describeAttributes "scores" c.criteriaScores ++
    describeAttributes "utilities" c.utilities ++ describeAttributes "risks" c.risks

/-! ## Ranking -/

/-- The name of the choice that a verdict picks. -/
def pickedName (cs : List (Choice Single)) (v : Verdict) : Text :=
  ((cs[v.selected]?).map (·.name)).getD []

/-- The verdict that counts without rules: the first choice. -/
def noVerdict (cs : List (Choice Single)) : Verdict :=
  ⟨"none", .expectedValue, 0, cs.map fun _ => 0, Score.neutral⟩

/-- The place of the most confident verdict, the first of several. -/
def winner (vs : List Verdict) : Nat := Verdict.firstLargest (vs.map (·.confidence))

/-- What is decided: the choices and criteria, each rule with its verdict, and the verdict
    that counts. -/
structure Ranking where
  premises : List Proposition
  choices : List (Choice Single)
  criteria : List (Criterion Single)
  verdicts : List (DecisionRule × Verdict)
  /-- The place of the verdict that counts. -/
  winner : Nat
  final : Verdict

namespace Ranking

def of (ps : List Proposition) (cs : List (Choice Single)) (ks : List (Criterion Single))
    (rules : List DecisionRule) : Ranking :=
  let verdicts := rules.map fun rule => (rule, rule.decide cs ks)
  let i := Decision.winner (verdicts.map (·.2))
  ⟨ps, cs, ks, verdicts, i, ((verdicts[i]?).map (·.2)).getD (noVerdict cs)⟩

/-- The choice that is recommended. -/
def selected? (k : Ranking) : Option (Choice Single) := k.choices[k.final.selected]?

def selectedName (k : Ranking) : Text := pickedName k.choices k.final

def statement (k : Ranking) : Text :=
  Text.ofString "Select " ++ k.selectedName ++ Text.ofString " (" ++ k.final.kind.name ++
    Text.ofString ")"

/-- The proof: premises, choices, verdicts and the conclusion from the one that counts. -/
def proof (k : Ranking) : Ledger :=
  let l := k.premises.foldl
    (fun l p => l.push .premise p.text "given" p.certainty []) Ledger.empty
  let premiseSeqs := List.range' 1 k.premises.length
  let l := k.choices.foldl
    (fun l c => l.push .inference (describe c) "option" c.confidence premiseSeqs) l
  let choiceSeqs := List.range' (k.premises.length + 1) k.choices.length
  let base := l.size
  let l := k.verdicts.foldl
    (fun l (rule, v) =>
      l.push .inference (rule.name ++ Text.ofString " selects " ++ pickedName k.choices v)
        rule.description v.confidence choiceSeqs)
    l
  let l :=
    if k.verdicts.isEmpty then
      l.push .inference "No decision rules registered" "fallback" Score.neutral choiceSeqs
    else l
  l.push .conclusion k.statement "highest-confidence rule" k.final.confidence
    [base + k.winner + 1]

/-- The risks of the recommended choice that are to be reported. -/
def risks (k : Ranking) (c : Config) : Dict Single :=
  ((k.selected?.map (·.risks)).getD []).filter fun r => c.riskReportThreshold < r.2

/-- The number of choices that some rule picks. -/
def picks (k : Ranking) : Nat :=
  let selected := if k.verdicts.isEmpty then [k.final.selected]
    else k.verdicts.map (·.2.selected)
  (Text.distinct selected).length

def uncertainty (k : Ranking) (c : Config) : Uncertainty :=
  let risks := k.risks c
  let disagree := decide (1 < k.picks)
  { level := Score.clamp (1 - k.final.confidence + 0.1 * .ofNat (k.picks - 1))
    sources := (risks.map fun r =>
        Text.ofString "Risk '" ++ r.1 ++ Text.ofString "' on " ++ k.selectedName) ++
      (if disagree then [Text.ofString "Decision rules disagree"] else [])
    mitigations :=
      (if risks.isEmpty then [] else [Text.ofString "Plan mitigations for the reported risks"]) ++
      (if disagree then [Text.ofString "Settle the attitude to risk before choosing"] else []) }

/-- What is recommended besides the choice. -/
def recommendations (k : Ranking) : List Text :=
  [Text.ofString "Compared " ++ Text.ofNat k.choices.length ++
    Text.ofString " option(s) against " ++ Text.ofNat k.criteria.length ++
    Text.ofString " criteria"] ++
  (if k.choices.length < 2 then [Text.ofString "Consider more alternatives"] else []) ++
  (if k.criteria.isEmpty then [Text.ofString "State explicit decision criteria"] else [])

/-- The verdict of a rule with the scores by name. -/
def verdictJson (k : Ranking) (v : Verdict) : Json :=
  let scores := (k.choices.zip v.scores).map fun (c, x) => (c.name, Json.ofSingle x)
  .ofMembers [("rule", .string v.rule), ("kind", .string v.kind.name),
    ("selected", .string (pickedName k.choices v)), ("scores", .object (Dict.ofList scores)),
    ("confidence", .ofSingle v.confidence)]

def choiceJson (c : Choice Single) : Json :=
  .ofMembers [("id", .string c.id), ("name", .string c.name),
    ("criteria_scores", .ofDict .ofSingle c.criteriaScores),
    ("utilities", .ofDict .ofSingle c.utilities), ("risks", .ofDict .ofSingle c.risks),
    ("confidence", .ofSingle c.confidence)]

def details (k : Ranking) (c : Config) : Json :=
  let selected := .ofMembers [("id", .string ((k.selected?.map (·.id)).getD [])),
    ("name", .string k.selectedName)]
  let risk (r : Text × Single) : Json :=
    .ofMembers [("risk", .string r.1), ("level", .ofSingle r.2)]
  .ofMembers [
    ("selected", selected),
    ("rule", .string k.final.rule),
    ("rules", .array (k.verdicts.map fun v => k.verdictJson v.2)),
    ("options", .array (k.choices.map choiceJson)),
    ("criteria", .array (k.criteria.map Criterion.toJson)),
    ("risks", .array ((k.risks c).map risk)),
    ("recommendations", .ofTexts k.recommendations)]

def answer (k : Ranking) (c : Config) (input : Text) : Result where
  mode := .decision
  confidence := Score.clamp (0.3 * Score.mean (k.choices.map (·.confidence)) +
    0.6 * k.final.confidence + 0.1 * input.lengthFactor)
  conclusions := [k.statement]
  proof := k.proof
  alternatives := (k.choices.map (·.name)).eraseIdx k.final.selected
  uncertainty := k.uncertainty c
  evidence := k.verdicts.map fun v =>
    v.1.name ++ Text.ofString ": " ++ Text.join ", " v.1.evidence
  noEvidence := false
  details := k.details c

end Ranking

/-- Decides among the choices of an input and its context, and records the call. -/
def reason (r : Registry) (c : Config) (m : Metrics) (input : Text) (context : Json) :
    Result × Metrics :=
  let cs := choices r c input context
  let ks := criteria r input context
  if cs.isEmpty then
    let result := Result.neutral .decision "No decision options found"
      (.ofMembers [("options", .array []), ("criteria", .ofNat ks.length)])
      [Text.ofString "Name the options, e.g. \"choose between X or Y\""]
    (result, m.call .decision result.confidence true)
  else
    let k := Ranking.of (Extraction.extract input context).premises cs ks r.decisionRules.items
    let result := k.answer c input
    (result, (m.addOptions cs.length).call .decision result.confidence false)

end Reasoning.Decision
