/-
  Modal reasoning: necessity, possibility, belief, knowledge, obligation.

  The operators of the input are evaluated over a small graph of worlds.  A necessity holds
  when its premise holds in every reachable world that speaks of it, a possibility when it
  holds in one; the other operators hold as they stand.
-/
import Reasoning.Extraction
import Reasoning.Metrics
import Reasoning.Modal.Worlds
import Reasoning.Registry.Basic
import Reasoning.Result

namespace Reasoning.Modal

/-! ## Rules -/

/-- Whether an operator brings a rule into play. -/
def fires (rule : ModalRule) (d : Detection) : Bool :=
  rule.operator == d.operator.name ||
    (rule.operator == Text.ofString "any" && !d.operator.dual.isEmpty)

/-- A rule in play, with the detection that brought it and its number. -/
structure Application where
  rule : ModalRule
  detection : Detection
  index : Nat

/-- The rules in play, each by the first detection that brings it. -/
def applications (rules : List ModalRule) (ds : List Detection) : List Application :=
  rules.filterMap fun rule =>
    (ds.zipIdx.find? fun (d, _) => fires rule d).map fun (d, i) => ⟨rule, d, i⟩

/-! ## Evaluation -/

/-- What the worlds say of a detected operator. -/
structure Evaluation where
  detection : Detection
  sentence : Text
  /-- The number of worlds in which the premise holds. -/
  holds : Nat
  /-- The number of worlds that speak of the premise. -/
  total : Nat
  deriving DecidableEq

namespace Evaluation

def ofDetection (ws : List World) (ps : List Proposition) (d : Detection) : Evaluation :=
  let vs := World.verdicts ws (World.propositionOf d.premise)
  ⟨d, ((ps[d.premise]?).map (·.text)).getD [], vs.count true, vs.length⟩

def operatorName (e : Evaluation) : Text := e.detection.operator.name

def isPossibility (e : Evaluation) : Bool := e.operatorName == Text.ofString "possibility"

def satisfied (e : Evaluation) : Bool :=
  if e.operatorName == Text.ofString "necessity" then 0 < e.total && e.holds == e.total
  else if e.isPossibility then 0 < e.holds
  else true

/-- The statement that the operator makes. -/
def statement (e : Evaluation) : Text :=
  e.detection.operator.description ++ Text.ofString " [" ++ e.sentence ++ Text.ofString "]"

/-- What is left to say: the denial of an operator that does not hold, and the belief that
    goes with knowledge. -/
def alternatives (e : Evaluation) : List Text :=
  (if e.satisfied then []
   else [Text.ofString "Not " ++ e.operatorName ++ Text.ofString ": " ++ e.sentence]) ++
  (if e.operatorName == Text.ofString "knowledge" then
     [Text.ofString "It is believed that [" ++ e.sentence ++ Text.ofString "]"]
   else [])

/-- The support that the proof states. -/
def support (e : Evaluation) : Text :=
  Text.ofString "holds in " ++ Text.ofNat e.holds ++ Text.ofString "/" ++ Text.ofNat e.total ++
    Text.ofString " accessible world(s)"

def toJson (e : Evaluation) : Json :=
  .ofMembers [("operator", .string e.operatorName),
    ("proposition", .string (World.propositionOf e.detection.premise)),
    ("holds_in", .ofNat e.holds), ("worlds", .ofNat e.total), ("satisfied", .bool e.satisfied)]

end Evaluation

/-! ## Beliefs -/

/-- What a premise says of a belief: its words without negations, and whether the negations
    make it negative. -/
def beliefContent? (p : Proposition) : Option (List Text × Bool) :=
  let ws := p.text.words
  if Text.hasAnyWord ws ["believe", "believes", "believed", "think", "thinks"] then
    let negations := Text.ofStrings ["not", "no", "never", "don't", "doesn't"]
    some (ws.filter fun w => !negations.contains w,
      (ws.countP fun w => negations.contains w) % 2 == 1)
  else none

/-- Two of the beliefs agree in their words and differ in their sense. -/
def hasConflict : List (List Text × Bool) → Bool
  | [] => false
  | (words, sense) :: bs =>
    (bs.any fun b => b.1 == words && b.2 != sense) || hasConflict bs

/-- Whether the premises state opposite beliefs where there is talk of belief. -/
def isInconsistent (ds : List Detection) (ps : List Proposition) : Bool :=
  (ds.any fun d => d.operator.name == Text.ofString "belief") &&
    hasConflict (ps.filterMap beliefContent?)

/-! ## The answer -/

/-- The proof: premises, detections, rules in play, and the operators that hold. -/
def proof (ps : List Proposition) (ds : List Detection) (as : List Application)
    (es : List Evaluation) : Ledger :=
  let detectionSeq (i : Nat) : Nat := ps.length + i + 1
  let l := ps.foldl (fun l p => l.push .premise p.text "given" p.certainty []) Ledger.empty
  let l := ds.foldl
    (fun l d =>
      let sentence := ((ps[d.premise]?).map (·.text)).getD []
      l.push .inference
        (d.operator.symbol ++ Text.ofString " (" ++ d.operator.name ++ Text.ofString ") on \"" ++
          sentence ++ Text.ofString "\"")
        (Text.ofString "detected via '" ++ d.trigger ++ Text.ofString "'") d.operator.strength
        [d.premise + 1])
    l
  let l := as.foldl
    (fun l a =>
      l.push .inference (a.rule.antecedent ++ Text.ofString " ⊢ " ++ a.rule.consequent)
        a.rule.name (Score.clamp (a.rule.confidence * a.detection.operator.strength))
        [detectionSeq a.index])
    l
  es.zipIdx.foldl
    (fun l (e, i) =>
      if e.satisfied then
        l.push .conclusion e.statement e.support e.detection.operator.strength [detectionSeq i]
      else l)
    l

/-- The weights of all edges, world by world. -/
def weights (ws : List World) : List Single := ws.flatMap fun w => w.accessibility.values

/-- How freely worlds are reached. -/
def accessibilityLevel (meanWeight : Single) : Text :=
  if (0.7 : Single) < meanWeight then "high"
  else if (0.4 : Single) < meanWeight then "moderate"
  else "low"

def details (ds : List Detection) (ws : List World) (as : List Application)
    (es : List Evaluation) : Json :=
  let edges := weights ws
  let meanWeight := if edges.isEmpty then 0 else Score.mean edges
  let operator (d : Detection) : Json :=
    .ofMembers [("symbol", .string d.operator.symbol), ("name", .string d.operator.name),
      ("strength", .ofSingle d.operator.strength), ("trigger", .string d.trigger)]
  .ofMembers [
    ("operators", .array (ds.map operator)),
    ("worlds", .array (ws.map World.toJson)),
    ("world_count", .ofNat ws.length),
    ("evaluations", .array (es.map Evaluation.toJson)),
    ("rules_applied", .ofTexts (as.map (·.rule.id))),
    ("accessibility", .ofMembers [("edges", .ofNat edges.length),
      ("mean_weight", .ofSingle meanWeight),
      ("level", .string (accessibilityLevel meanWeight))])]

/-- What makes an answer uncertain: an open possibility, many worlds, doubt in the input. -/
def uncertainty (input : Text) (possibility inconsistent : Bool) (worlds : Nat) : Uncertainty :=
  let many := decide (3 < worlds)
  let doubt := input.signalsDoubt
  let part (b : Bool) (high low : Single) : Single := if b then high else low
  let listed (b : Bool) (t : String) : List Text := if b then [Text.ofString t] else []
  { level := Score.clamp (part possibility 0.3 0.1 + part many 0.2 0.1 + part doubt 0.2 0.1)
    sources := listed inconsistent "Inconsistent beliefs" ++
      listed possibility "Possibility opens alternative worlds" ++
      listed many "Many worlds under consideration" ++ listed doubt "Question or hedge in input"
    mitigations := listed inconsistent "Retract one of the opposing beliefs" ++
      listed possibility "State which world is actual" }

/-- The answer to an input with premises and operators. -/
def answer (r : Registry) (c : Config) (input : Text) (ps : List Proposition)
    (ds : List Detection) : Result :=
  let ws := World.build c r.worlds.items ps ds
  let as := applications r.modalRules.items ds
  let es := ds.map (Evaluation.ofDetection ws ps)
  let inconsistent := isInconsistent ds ps
  let coverage := (1 : Single).smaller (.ofNat ws.length / 5)
  { mode := .modal
    confidence := Score.clamp (0.6 * Score.mean (ds.map (·.operator.strength)) +
      0.3 * coverage + 0.1 * input.lengthFactor)
    conclusions := (es.filter Evaluation.satisfied).map Evaluation.statement
    proof := proof ps ds as es
    alternatives := es.flatMap Evaluation.alternatives ++
      (if inconsistent then [Text.ofString "Belief set is inconsistent"] else [])
    uncertainty := uncertainty input (es.any Evaluation.isPossibility) inconsistent ws.length
    evidence := as.flatMap fun a =>
      a.rule.evidence.map fun e => a.rule.name ++ Text.ofString ": " ++ e
    noEvidence := false
    details := details ds ws as es }

/-- Reasons from an input and its context, and records the call. -/
def reason (r : Registry) (c : Config) (m : Metrics) (input : Text) (context : Json) :
    Result × Metrics :=
  let ps := (Extraction.extract input context).premises
  let ds := Detection.detect input r.modalOperators.items ps
  if ps.isEmpty then
    let result := Result.neutral .modal "No propositions found in input" (.object []) []
    (result, m.call .modal result.confidence true)
  else if ds.isEmpty then
    let result := Result.neutral .modal "No modal operators detected"
      (.ofMembers [("operators", .array []), ("worlds", .array [])]) []
    (result, m.call .modal result.confidence true)
  else
    let result := answer r c input ps ds
    let worlds := (World.build c r.worlds.items ps ds).length
    let applied := (applications r.modalRules.items ds).length
    (result, ((m.addWorlds worlds).addRulesApplied applied).call .modal result.confidence false)

end Reasoning.Modal
