/-
  Metrics: what the engines have done.

  Counters of 64 bits and, for each mode, the number of calls with the running average of
  their confidences.  `Metrics.call` records one finished call.
-/
import Reasoning.Numeric.Scalar
import Reasoning.Mode
import Reasoning.Json.Basic

namespace Reasoning

/-- The number of some scores and their average. -/
structure RunningAverage (α : Type) where
  count : UInt64
  average : α
  deriving DecidableEq

namespace RunningAverage

variable {α : Type} [Scalar α]

def empty : RunningAverage α := ⟨0, Scalar.zero⟩

/-- One more score: the average moves by its share of the distance. -/
def add (a : RunningAverage α) (x : α) : RunningAverage α :=
  let count := a.count + 1
  ⟨count, a.average + (Scalar.clamp x - a.average) / Scalar.ofNat count.toNat⟩

end RunningAverage

structure Metrics where
  modes : PerMode (RunningAverage Single)
  totalCalls : UInt64
  emptyInputs : UInt64
  rulesApplied : UInt64
  rulesSkipped : UInt64
  worldsExplored : UInt64
  bayesianUpdates : UInt64
  measurements : UInt64
  optionsAnalyzed : UInt64
  transfersAttempted : UInt64
  transfersSucceeded : UInt64
  analogiesFound : UInt64
  deriving DecidableEq

namespace Metrics

def empty : Metrics := ⟨.const .empty, 0, 0, 0, 0, 0, 0, 0, 0, 0, 0, 0⟩

instance : Inhabited Metrics := ⟨empty⟩

/-- Records a finished call of a mode. -/
def call (m : Metrics) (mode : Mode) (confidence : Single) (isEmpty : Bool) : Metrics :=
  { m with
    totalCalls := m.totalCalls + 1
    emptyInputs := if isEmpty then m.emptyInputs + 1 else m.emptyInputs
    modes := m.modes.modify mode (·.add confidence) }

def addRulesApplied (m : Metrics) (n : Nat) : Metrics :=
  { m with rulesApplied := m.rulesApplied + n.toUInt64 }

def addRulesSkipped (m : Metrics) (n : Nat) : Metrics :=
  { m with rulesSkipped := m.rulesSkipped + n.toUInt64 }

def addWorlds (m : Metrics) (n : Nat) : Metrics :=
  { m with worldsExplored := m.worldsExplored + n.toUInt64 }

def addBayesianUpdate (m : Metrics) : Metrics :=
  { m with bayesianUpdates := m.bayesianUpdates + 1 }

def addMeasurements (m : Metrics) (n : Nat) : Metrics :=
  { m with measurements := m.measurements + n.toUInt64 }

def addOptions (m : Metrics) (n : Nat) : Metrics :=
  { m with optionsAnalyzed := m.optionsAnalyzed + n.toUInt64 }

def addAnalogies (m : Metrics) (n : Nat) : Metrics :=
  { m with analogiesFound := m.analogiesFound + n.toUInt64 }

def transfer (m : Metrics) (success : Bool) : Metrics :=
  { m with
    transfersAttempted := m.transfersAttempted + 1
    transfersSucceeded := if success then m.transfersSucceeded + 1 else m.transfersSucceeded }

/-- The share of transfers that succeeded. -/
def transferSuccessRate (m : Metrics) : Single :=
  if m.transfersAttempted = 0 then 0
  else .ofNat m.transfersSucceeded.toNat / .ofNat m.transfersAttempted.toNat

def toJson (m : Metrics) : Json :=
  let counter (n : UInt64) : Json := .ofNat n.toNat
  let modes := Mode.all.map fun k =>
    (k.name, Json.ofMembers [("calls", counter (m.modes.get k).count),
      ("average_confidence", .ofSingle (m.modes.get k).average)])
  .ofMembers [
    ("total_calls", counter m.totalCalls),
    ("empty_inputs", counter m.emptyInputs),
    ("modes", .object (Dict.ofList modes)),
    ("rules_applied", counter m.rulesApplied),
    ("rules_skipped", counter m.rulesSkipped),
    ("worlds_explored", counter m.worldsExplored),
    ("bayesian_updates", counter m.bayesianUpdates),
    ("measurements", counter m.measurements),
    ("options_analyzed", counter m.optionsAnalyzed),
    ("transfers_attempted", counter m.transfersAttempted),
    ("transfers_succeeded", counter m.transfersSucceeded),
    ("transfer_success_rate", .ofSingle m.transferSuccessRate),
    ("analogies_found", counter m.analogiesFound)]

end Metrics

end Reasoning
