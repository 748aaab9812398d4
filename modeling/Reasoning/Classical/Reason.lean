/-
  Classical reasoning: rules applied to the premises of a text.

  Every rule of the registry is tried on the premises.  What a deduction yields becomes a
  conclusion, what the other kinds of rules yield an alternative; a statement that is
  refused is reported as rejected, and a rule that cannot be applied is skipped.  A premise
  that is an instance of an axiom is certain and concluded.

  The answer is valid when something was concluded and nothing rejected, and sound when all
  premises are certain enough besides.

  * `Run` is what has been found so far, `Run.take` adds one match of a rule;
  * `Run.conclude` writes the conclusions into the proof;
  * `Classical.reason` is the whole call.
-/
import Reasoning.Classical.Match
import Reasoning.Classical.Sanity
import Reasoning.Config
import Reasoning.Extraction
import Reasoning.Metrics
import Reasoning.Registry.Basic
import Reasoning.Result

namespace Reasoning.Classical

/-! ## Premises -/

/-- A premise with its place in the proof and the axiom that it is an instance of. -/
structure Given where
  proposition : Proposition
  words : List Text
  instanceOf : Option Axiom
  seq : Nat

/-- The reason that a proof states for a premise. -/
def Given.why (g : Given) : Text :=
  match g.instanceOf with
  | some a => Text.ofString "axiom " ++ a.name
  | none => Text.ofString "given (" ++ g.proposition.kind.name ++ Text.ofString ", " ++
      g.proposition.source ++ Text.ofString ")"

/-- A premise on the line `seq` of the proof; an instance of an axiom is certain. -/
def Given.ofProposition (axioms : List Axiom) (p : Proposition) (seq : Nat) : Given :=
  let ws := p.text.tokens
  let found := axiomInstance? ws axioms
  ⟨if found.isSome then { p with certainty := 1 } else p, ws, found, seq⟩

def givens (axioms : List Axiom) (ps : List Proposition) : List Given :=
  ps.zipIdx.map fun (p, i) => .ofProposition axioms p (i + 1)

/-! ## Applying rules -/

/-- A deduction that stands on the line `seq` of the proof. -/
structure Deduced where
  conclusion : Text
  ruleName : Text
  confidence : Single
  seq : Nat

/-- A match whose conclusion is refused. -/
structure Rejected where
  rule : Text
  conclusion : Text
  reason : Rejection

def Rejected.toJson (r : Rejected) : Json :=
  .ofMembers [("rule", .string r.rule), ("conclusion", .string r.conclusion),
    ("reason", .string r.reason.message)]

/-- What has been found so far. -/
structure Run where
  proof : Ledger
  evidence : List Text
  /-- The rules of the inferences, one entry for each. -/
  applied : List Text
  rejected : List Rejected
  /-- The distinct deductions, first come first. -/
  deduced : List Deduced
  alternatives : List Text
  /-- The number of rules that could not be applied. -/
  skipped : Nat

/-- The run that has only read its premises. -/
def Run.start (gs : List Given) : Run where
  proof := gs.foldl
    (fun l g => l.push .premise g.proposition.text g.why g.proposition.certainty []) .empty
  evidence := gs.filterMap fun g => g.instanceOf.map fun a => Text.ofString "Axiom: " ++ a.name
  applied := []
  rejected := []
  deduced := []
  alternatives := []
  skipped := 0

/-- The premises that a match takes. -/
def taken (gs : List Given) (m : RuleMatch) : List Given := m.premises.filterMap (gs[·]?)

/-- The confidence that a rule gives to what follows from premises: its own, times the mean
    of their certainties. -/
def support (confidence : Single) (certainties : List Single) : Single :=
  Score.clamp (confidence * Score.mean certainties)

/-- Whether a statement is among the deductions. -/
def Run.hasDeduced (run : Run) (statement : Text) : Bool :=
  run.deduced.any fun d => d.conclusion.canonical == statement.canonical

/-- Adds a match of a rule. -/
def Run.take (gs : List Given) (r : InferenceRule) (run : Run) (m : RuleMatch) : Run :=
  match rejection? m.conclusion (gs.map (·.proposition)) with
  | some reason => { run with rejected := run.rejected ++ [⟨r.id, m.conclusion, reason⟩] }
  | none =>
    let premises := taken gs m
    let confidence := support r.confidence (premises.map (·.proposition.certainty))
    let seq := run.proof.nextSeq
    let run : Run := { run with
      proof := run.proof.push .inference m.conclusion r.name confidence (premises.map (·.seq))
      applied := run.applied ++ [r.id]
      evidence := run.evidence ++
        [r.name ++ Text.ofString ": " ++ Text.join ", " r.evidence] }
    if r.kind = .deduction then
      if run.hasDeduced m.conclusion then run
      else { run with deduced := run.deduced ++ [⟨m.conclusion, r.name, confidence, seq⟩] }
    else
      { run with alternatives := run.alternatives ++
          [m.conclusion ++ Text.ofString " (" ++ r.kind.name ++ Text.ofString ")"] }

/-- Adds all matches of a rule, or counts the rule as skipped. -/
def Run.apply (gs : List Given) (run : Run) (r : InferenceRule) : Run :=
  match r.apply (gs.map (·.words)) with
  | .ok ms => ms.foldl (Run.take gs r) run
  | .error _ => { run with skipped := run.skipped + 1 }

/-! ## Conclusions -/

/-- A proof with the conclusions that it ends in. -/
structure Concluded where
  proof : Ledger
  conclusions : List Text

/-- Concludes a deduction. -/
def Concluded.addDeduced (c : Concluded) (d : Deduced) : Concluded :=
  ⟨c.proof.push .conclusion d.conclusion (Text.ofString "by " ++ d.ruleName) d.confidence [d.seq],
    c.conclusions ++ [d.conclusion]⟩

/-- Concludes a premise that is an instance of an axiom, unless it is concluded already. -/
def Concluded.addInstance (c : Concluded) (g : Given) : Concluded :=
  match g.instanceOf with
  | none => c
  | some a =>
    let text := g.proposition.text
    if c.conclusions.any fun s => s.canonical == text.canonical then c
    else
      ⟨c.proof.push .conclusion text (Text.ofString "instance of axiom " ++ a.name) 1 [g.seq],
        c.conclusions ++ [text]⟩

/-- The conclusions of a run: its deductions, then the instances of axioms. -/
def Run.conclude (run : Run) (gs : List Given) : Concluded :=
  gs.foldl Concluded.addInstance (run.deduced.foldl Concluded.addDeduced ⟨run.proof, []⟩)

/-! ## The answer -/

/-- What makes an answer uncertain. -/
def uncertainty (c : Config) (ps : List Proposition) (hasConclusion : Bool) (rejected : Nat) :
    Uncertainty :=
  let doubt := 1 - Score.mean (ps.map (·.certainty))
  let weak := ps.countP fun p => p.certainty ≤ c.soundnessThreshold
  let hypotheses := ps.countP fun p => p.kind = .hypothesis
  let counted (n : Nat) (what : String) : List Text :=
    if 0 < n then [Text.ofNat n ++ Text.ofString what] else []
  { level := Score.clamp (doubt + (if hasConclusion then 0 else 0.2))
    sources := counted weak " premise(s) below certainty threshold" ++
      counted hypotheses " hypothetical premise(s)" ++
      (if hasConclusion then [] else [Text.ofString "No inference rule applied"]) ++
      counted rejected " derived statement(s) rejected"
    mitigations :=
      (if 0 < weak then [Text.ofString "Restate premises as definite claims"] else []) ++
      (if hasConclusion then []
       else [Text.ofString "Add premises that connect to each other"]) }

/-- The answer to an input with at least one premise. -/
def answer (c : Config) (ex : Extraction) (gs : List Given) (run : Run) : Result :=
  let done := run.conclude gs
  let ps := gs.map (·.proposition)
  let validity := !done.conclusions.isEmpty && run.rejected.isEmpty
  let soundness := validity && ps.all fun p => c.soundnessThreshold < p.certainty
  { mode := .classical
    confidence :=
      if done.conclusions.isEmpty then Score.neutral
      else
        Score.clamp (done.proof.meanConfidence * (1 + 0.1 * .ofNat done.conclusions.length))
    conclusions := done.conclusions
    proof := done.proof
    alternatives := run.alternatives
    uncertainty := uncertainty c ps (!done.conclusions.isEmpty) run.rejected.length
    evidence := run.evidence
    noEvidence := false
    details := .ofMembers [
      ("validity", .bool validity),
      ("soundness", .bool soundness),
      ("rules_applied", .ofTexts run.applied),
      ("axioms", .ofTexts (gs.filterMap fun g => g.instanceOf.map (·.id))),
      ("rejected", .array (run.rejected.map Rejected.toJson)),
      ("premises", .array (ps.map Proposition.toJson)),
      ("connectives", .ofTexts (ex.connectives.map Connective.name)),
      ("complexity", .ofSingle ex.complexity)] }

/-- Reasons from an input and its context, and records the call. -/
def reason (r : Registry) (c : Config) (m : Metrics) (input : Text) (context : Json) :
    Result × Metrics :=
  let ex := Extraction.extract input context
  if ex.premises.isEmpty then
    let result := Result.neutral .classical "No premises found in input"
      (.ofMembers [("validity", .bool false), ("soundness", .bool false)]) []
    (result, m.call .classical result.confidence true)
  else
    let gs := givens r.axioms.items ex.premises
    let run := r.inferenceRules.items.foldl (Run.apply gs) (.start gs)
    let result := answer c ex gs run
    (result, ((m.addRulesApplied run.applied.length).addRulesSkipped run.skipped).call
      .classical result.confidence false)

end Reasoning.Classical
