/-
  An engine: a registry, the metrics of what was done with it, and a configuration.

  Every call gives its answer and the engine that is left.  Only registrations and transfers
  change the registry, only calls of reasoning change the metrics, and nothing changes the
  configuration.
-/
import Reasoning.Classical.Argument
import Reasoning.Decision.Reason
import Reasoning.Domain.Abstraction
import Reasoning.Domain.Analogy
import Reasoning.Domain.Reason
import Reasoning.Domain.Synthesis
import Reasoning.Domain.Transfer
import Reasoning.Modal.Reason
import Reasoning.Probability.Reason
import Reasoning.Quantum.Reason
import Reasoning.Registry.Record
import Reasoning.Registry.Seed

namespace Reasoning

structure Engine where
  registry : Registry
  metrics : Metrics
  config : Config

namespace Engine

/-- A new engine with the usual knowledge. -/
def seeded (c : Config) : Engine := ⟨.seeded, .empty, c⟩

/-- A new engine that knows nothing. -/
def bare (c : Config) : Engine := ⟨.empty, .empty, c⟩

/-! ## Reasoning in a mode -/

/-- The result of reasoning about an input in one mode, and the metrics that are left. -/
def evaluate (r : Registry) (c : Config) (m : Metrics) (mode : Mode) (input : Text)
    (context : Json) : Result × Metrics :=
  match mode with
  | .classical => Classical.reason r c m input context
  | .modal => Modal.reason r c m input context
  | .probabilistic => Probability.reason r m input context
  | .quantum => Quantum.reason r c m input context
  | .decision => Decision.reason r c m input context
  | .crossDomain => CrossDomainSolution.reason r c m input context

/-- Reasons about an input in one mode. -/
def reason (e : Engine) (mode : Mode) (input : Text) (context : Json) : Result × Engine :=
  let (result, m) := evaluate e.registry e.config e.metrics mode input context
  (result, { e with metrics := m })

/-- Reasons about an input in some modes, one after the other. -/
def reasonIn (e : Engine) (input : Text) (context : Json) :
    List Mode → List (Mode × Result) × Engine
  | [] => ([], e)
  | mode :: modes =>
    let (result, e) := e.reason mode input context
    let (results, e) := reasonIn e input context modes
    ((mode, result) :: results, e)

/-- Checks an argument by forward chaining. -/
def validateArgument (e : Engine) (premises : List Text) (conclusion : Text) :
    Classical.ArgumentCheck :=
  Classical.validateArgument e.registry e.config premises conclusion

/-! ## Reasoning across domains -/

/-- Solves a problem in some domains. -/
def across (e : Engine) (problem : Text) (domains : List Text) : CrossDomainSolution × Engine :=
  let s := CrossDomainSolution.of e.registry e.config problem domains
  (s, { e with metrics := s.recordMetrics e.metrics })

/-- Carries knowledge from one domain to another. -/
def transfer (e : Engine) (source target : Text) (knowledge : Json) : Transfer × Engine :=
  let t := Transfer.of e.registry e.config source target knowledge
  (t, { e with registry := t.recordMapping e.registry, metrics := t.recordMetrics e.metrics })

/-- Looks for analogies of a structure in a domain. -/
def analogies (e : Engine) (source : Json) (target : Text) : AnalogySearch × Engine :=
  let s := AnalogySearch.of e.registry e.config source target
  (s, { e with metrics := s.recordMetrics e.metrics })

/-- Looks for features that some concepts share across domains. -/
def abstractions (e : Engine) (concepts domains : List Text) : AbstractionSearch × Engine :=
  let s := AbstractionSearch.of e.registry concepts domains
  (s, { e with metrics := s.recordMetrics e.metrics })

/-- Brings some insights together over domains. -/
def synthesize (e : Engine) (insights domains : List Text) : InsightSynthesis × Engine :=
  let s := InsightSynthesis.of e.registry insights domains
  (s, { e with metrics := s.recordMetrics insights e.metrics })

/-! ## Registration -/

/-- Registers a record. -/
def register (e : Engine) (record : Record) : Except Registry.Error Engine := do
  return { e with registry := ← e.registry.add record }

/-- Adds the usual knowledge. -/
def seed (e : Engine) : Except Registry.Error Engine := do
  return { e with registry := ← e.registry.seed }

end Engine

end Reasoning
