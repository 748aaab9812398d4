/-
  Records of all kinds, and the collections of a registry.

  * `Record`, `Registry.add`: a record of any kind enters through the registration of its kind;
  * `Collection`, `Registry.records`: the records of a collection in their order.
-/
import Reasoning.Registry.Basic

namespace Reasoning

/-! ## Records -/

/-- A record that can be registered. -/
inductive Record where
  | logicalAxiom (a : Axiom)
  | inferenceRule (rule : InferenceRule)
  | modalOperator (o : ModalOperator)
  | modalRule (rule : ModalRule)
  | world (w : World)
  | distribution (d : Distribution)
  | quantumOperator (o : QuantumOperator)
  | quantumRule (rule : QuantumRule)
  | choice (c : Choice Single)
  | criterion (c : Criterion Single)
  | decisionRule (rule : DecisionRule)
  | domain (d : Domain)
  | mapping (m : Mapping)

/-- Registers a record. -/
def Registry.add (r : Registry) : Record → Except Registry.Error Registry
  | .logicalAxiom a => r.addAxiom a
  | .inferenceRule rule => r.addInferenceRule rule
  | .modalOperator o => r.addModalOperator o
  | .modalRule rule => r.addModalRule rule
  | .world w => r.addWorld w
  | .distribution d => r.addDistribution d
  | .quantumOperator o => r.addQuantumOperator o
  | .quantumRule rule => r.addQuantumRule rule
  | .choice c => r.addChoice c
  | .criterion c => r.addCriterion c
  | .decisionRule rule => r.addDecisionRule rule
  | .domain d => r.addDomain d
  | .mapping m => r.addMapping m

/-! ## Collections -/

/-- The collections of a registry. -/
inductive Collection where
  | axioms
  | inferenceRules
  | modalOperators
  | modalRules
  | worlds
  | distributions
  | quantumOperators
  | quantumRules
  | choices
  | criteria
  | decisionRules
  | domains
  | mappings
  deriving Repr, DecidableEq

namespace Collection

def all : List Collection :=
  [axioms, inferenceRules, modalOperators, modalRules, worlds, distributions, quantumOperators,
    quantumRules, choices, criteria, decisionRules, domains, mappings]

def name : Collection → Text
  | axioms => "axioms"
  | inferenceRules => "inference_rules"
  | modalOperators => "modal_operators"
  | modalRules => "modal_rules"
  | worlds => "modal_worlds"
  | distributions => "distributions"
  | quantumOperators => "quantum_operators"
  | quantumRules => "quantum_rules"
  | choices => "decision_options"
  | criteria => "decision_criteria"
  | decisionRules => "decision_rules"
  | domains => "domains"
  | mappings => "mappings"

/-- The collection with a name. -/
def ofName? (s : Text) : Option Collection := all.find? fun c => c.name == s

end Collection

namespace Registry

/-- The records of a collection, in their order. -/
def records (r : Registry) : Collection → List Json
  | .axioms => r.axioms.items.map Axiom.toJson
  | .inferenceRules => r.inferenceRules.items.map InferenceRule.toJson
  | .modalOperators => r.modalOperators.items.map ModalOperator.toJson
  | .modalRules => r.modalRules.items.map ModalRule.toJson
  | .worlds => r.worlds.items.map World.toJson
  | .distributions => r.distributions.items.map Distribution.toJson
  | .quantumOperators => r.quantumOperators.items.map QuantumOperator.toJson
  | .quantumRules => r.quantumRules.items.map QuantumRule.toJson
  | .choices => r.choices.items.map Choice.toJson
  | .criteria => r.criteria.items.map Criterion.toJson
  | .decisionRules => r.decisionRules.items.map DecisionRule.toJson
  | .domains => r.domains.items.map Domain.toJson
  | .mappings => r.mappings.map Mapping.toJson

/-- The number of records of a collection. -/
def count (r : Registry) : Collection → Nat
  | .axioms => r.axioms.size
  | .inferenceRules => r.inferenceRules.size
  | .modalOperators => r.modalOperators.size
  | .modalRules => r.modalRules.size
  | .worlds => r.worlds.size
  | .distributions => r.distributions.size
  | .quantumOperators => r.quantumOperators.size
  | .quantumRules => r.quantumRules.size
  | .choices => r.choices.size
  | .criteria => r.criteria.size
  | .decisionRules => r.decisionRules.size
  | .domains => r.domains.size
  | .mappings => r.mappings.length

/-- The number of records of every collection. -/
def summary (r : Registry) : Json :=
  .object (Dict.ofList (Collection.all.map fun c => (c.name, .ofNat (r.count c))))

/-- The names of the domains, in their order. -/
def domainNames (r : Registry) : List Text := r.domains.items.map (·.name)

end Registry

end Reasoning
