/-
  Quantum reasoning: a way of labelling a text, not a simulation.

  The operators that a text names are applied to the states that it names.  What kinds of
  operators and states there are classifies the text.
-/
import Reasoning.Config
import Reasoning.Extraction
import Reasoning.Metrics
import Reasoning.Quantum.Measurement
import Reasoning.Registry.Basic
import Reasoning.Result

namespace Reasoning.Quantum

/-! ## Steps -/

/-- A measurement by the operator of a number. -/
structure Outcome where
  measurement : Measurement
  /-- The name of the state. -/
  stateName : Text
  /-- The number of the operator, counted from zero. -/
  index : Nat

/-- Every measuring operator on every state. -/
def outcomes (c : Config) (os : List QuantumOperator) (ss : List QuantumState) : List Outcome :=
  os.zipIdx.flatMap fun (o, i) =>
    if o.kind = .measurement then
      ss.map fun s => ⟨.measure s o c.collapseThreshold, s.name, i⟩
    else []

/-- A rule in play, with the operator that brought it and its number. -/
structure Application where
  rule : QuantumRule
  operator : QuantumOperator
  index : Nat

/-- The rules in play, each by the first operator of its trigger. -/
def applications (rules : List QuantumRule) (os : List QuantumOperator) : List Application :=
  rules.filterMap fun rule =>
    (os.zipIdx.find? fun (o, _) => o.name == rule.trigger).map fun (o, i) => ⟨rule, o, i⟩

/-! ## Classification -/

/-- What a text is about. -/
structure Traits where
  superposition : Bool
  entanglement : Bool
  measuring : Bool
  deriving Repr, DecidableEq

namespace Traits

def of (os : List QuantumOperator) (ss : List QuantumState) : Traits where
  superposition := os.any (fun o => o.name == Text.ofString "hadamard") ||
    ss.any fun s => !s.synthesized && 1 < s.superposition.length
  entanglement :=
    os.any (fun o => o.kind = .entanglement || o.name == Text.ofString "entanglement") ||
      ss.any fun s => !s.entangledWith.isEmpty
  measuring := os.any fun o => o.kind = .measurement || o.name == Text.ofString "measurement"

def classification (t : Traits) : Text :=
  if t.superposition && t.entanglement then "complex-quantum"
  else if t.superposition then "superposition-based"
  else if t.entanglement then "entanglement-based"
  else if t.measuring then "measurement-focused"
  else "quantum"

end Traits

/-! ## The answer -/

/-- What is found in an input. -/
structure Findings where
  premises : List Proposition
  operators : List QuantumOperator
  states : List QuantumState
  outcomes : List Outcome
  applications : List Application
  traits : Traits

def findings (r : Registry) (c : Config) (ps : List Proposition) (os : List QuantumOperator)
    (ss : List QuantumState) : Findings :=
  ⟨ps, os, ss, outcomes c os ss, applications r.quantumRules.items os, .of os ss⟩

namespace Findings

def statement (f : Findings) : Text :=
  Text.ofString "Quantum analysis: " ++ f.traits.classification ++
    Text.ofString " reasoning over " ++ Text.ofNat f.states.length ++ Text.ofString " state(s)"

/-- The proof up to the conclusion: premises, operators, measurements and rules in play. -/
def steps (f : Findings) : Ledger :=
  let operatorSeq (i : Nat) : Nat := f.premises.length + i + 1
  let l := f.premises.foldl
    (fun l p => l.push .premise p.text "given" p.certainty []) Ledger.empty
  let l := f.operators.foldl
    (fun l o =>
      l.push .inference
        (o.symbol ++ Text.ofString " (" ++ o.name ++ Text.ofString ", " ++ o.kind.name ++
          Text.ofString ")")
        "operator detected" o.strength (List.range' 1 f.premises.length))
    l
  let l := f.outcomes.foldl
    (fun l o =>
      l.push .inference
        (Text.ofString "measure " ++ o.stateName ++ Text.ofString " -> |" ++
          Text.ofNat o.measurement.result ++ Text.ofString ">")
        (if o.measurement.collapsed then "collapsed" else "superposition retained")
        o.measurement.probability [operatorSeq o.index])
    l
  f.applications.foldl
    (fun l a =>
      l.push .inference (a.rule.antecedent ++ Text.ofString " => " ++ a.rule.consequent)
        a.rule.name (Score.clamp (a.rule.confidence * a.operator.strength))
        [operatorSeq a.index])
    l

/-- The whole proof; the conclusion rests on the last step, if there is one. -/
def proof (f : Findings) (confidence : Single) : Ledger :=
  let l := f.steps
  l.push .conclusion f.statement "classification" confidence
    (if l.isEmpty then [] else [l.size])

def collapses (f : Findings) : List Text :=
  f.outcomes.filterMap fun o =>
    if o.measurement.collapsed then
      some (Text.ofString "State " ++ o.measurement.state ++ Text.ofString " collapses to |" ++
        Text.ofNat o.measurement.result ++ Text.ofString ">")
    else none

def alternatives (f : Findings) : List Text :=
  (f.outcomes.filterMap fun o =>
    if o.measurement.collapsed then none
    else some (Text.ofString "State " ++ o.measurement.state ++
      Text.ofString " remains in superposition")) ++
  (if f.traits.superposition && !f.traits.measuring then
     [Text.ofString "Outcome undetermined until measured"]
   else [])

def uncertainty (f : Findings) (input : Text) : Uncertainty :=
  let part (b : Bool) (high low : Single) : Single := if b then high else low
  let listed (b : Bool) (t : String) : List Text := if b then [Text.ofString t] else []
  let t := f.traits
  { level := Score.clamp (part t.measuring 0.4 0.2 + part t.superposition 0.3 0.1 +
      part input.signalsDoubt 0.2 0.1)
    sources := listed t.measuring "Measurement disturbs the state" ++
      listed t.superposition "Superposed alternatives are unresolved" ++
      listed t.entanglement "Entangled states cannot be described separately"
    mitigations := listed t.measuring "Repeat the observation under fixed conditions" ++
      listed t.superposition "Identify the observable that decides between them" }

def details (f : Findings) : Json :=
  let operator (o : QuantumOperator) : Json :=
    .ofMembers [("symbol", .string o.symbol), ("name", .string o.name),
      ("kind", .string o.kind.name), ("strength", .ofSingle o.strength)]
  .ofMembers [
    ("classification", .string f.traits.classification),
    ("operators", .array (f.operators.map operator)),
    ("states", .array (f.states.map QuantumState.toJson)),
    ("measurements", .array (f.outcomes.map fun o => o.measurement.toJson)),
    ("rules_applied", .ofTexts (f.applications.map (·.rule.id)))]

/-- The confidence: strength of the operators, number of states, length of the input. -/
def confidence (f : Findings) (input : Text) : Single :=
  let strength :=
    if f.operators.isEmpty then Score.neutral else Score.mean (f.operators.map (·.strength))
  let coverage := (1 : Single).smaller (.ofNat f.states.length / 3)
  Score.clamp (0.6 * strength + 0.3 * coverage + 0.1 * input.lengthFactor)

def answer (f : Findings) (input : Text) : Result :=
  let confidence := f.confidence input
  { mode := .quantum
    confidence := confidence
    conclusions := f.statement :: f.collapses
    proof := f.proof confidence
    alternatives := f.alternatives
    uncertainty := f.uncertainty input
    evidence := f.applications.map fun a =>
      a.rule.name ++ Text.ofString ": " ++ a.rule.constraint
    noEvidence := false
    details := f.details }

end Findings

/-- Reasons from an input and its context, and records the call. -/
def reason (r : Registry) (c : Config) (m : Metrics) (input : Text) (context : Json) :
    Result × Metrics :=
  let os := QuantumOperator.detect input r.quantumOperators.items
  let ss := QuantumState.extract input context
  if os.isEmpty && ss.isEmpty then
    let result := Result.neutral .quantum "No quantum elements detected"
      (.ofMembers [("classification", .ofText "none")]) []
    (result, m.call .quantum result.confidence true)
  else
    let ss := if ss.isEmpty then [QuantumState.default] else ss
    let f := findings r c (Extraction.extract input context).premises os ss
    let result := f.answer input
    (result, ((m.addMeasurements f.outcomes.length).addRulesApplied f.applications.length).call
      .quantum result.confidence false)

end Reasoning.Quantum
