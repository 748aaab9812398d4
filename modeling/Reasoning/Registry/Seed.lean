/-
  The built-in knowledge.

  What a registry knows from the start: the usual rules and axioms of propositional logic,
  modal and quantum operators, three distributions, five decision rules and eight domains.
-/
import Reasoning.Registry.Basic

namespace Reasoning.Registry

namespace Seed

/-! ## Classical reasoning -/

def logicalAxiom (id name statement : String) : Axiom := ⟨id, name, statement⟩

def axioms : List Axiom := [
  logicalAxiom "identity" "Identity" "P implies P",
  logicalAxiom "excluded_middle" "Excluded Middle" "P or not P",
  logicalAxiom "non_contradiction" "Non-Contradiction" "not (P and not P)",
  logicalAxiom "contraposition" "Contraposition" "(P implies Q) iff (not Q implies not P)",
  logicalAxiom "simplification" "Simplification" "(P and Q) implies P",
  logicalAxiom "addition" "Addition" "P implies (P or Q)"]

def rule (id name : String) (kind : InferenceRule.Kind) (antecedents : List String)
    (consequent : String) (confidence : Single) (evidence : List String) : InferenceRule :=
  ⟨id, name, kind, Text.ofStrings antecedents, consequent, confidence, Text.ofStrings evidence⟩

def inferenceRules : List InferenceRule := [
  rule "modus_ponens" "Modus Ponens" .deduction
    ["if P then Q|P implies Q|when P then Q", "P"] "Q" 0.95
    ["conditional", "affirmed antecedent"],
  rule "modus_tollens" "Modus Tollens" .deduction
    ["if P then Q|P implies Q", "not Q|it is not the case that Q"] "not P" 0.9
    ["conditional", "denied consequent"],
  rule "hypothetical_syllogism" "Hypothetical Syllogism" .deduction
    ["if P then Q|P implies Q", "if Q then R|Q implies R"] "if P then R" 0.85
    ["chained conditionals"],
  rule "disjunctive_syllogism" "Disjunctive Syllogism" .deduction
    ["either P or Q|P or Q", "not P|it is not the case that P"] "Q" 0.85
    ["disjunction", "eliminated disjunct"],
  rule "conjunction" "Conjunction" .deduction ["P", "Q"] "P and Q" 0.8 ["independent premises"],
  rule "simplification" "Simplification" .deduction ["both P and Q|P and Q"] "P" 0.9
    ["conjunction"],
  rule "addition" "Addition" .deduction ["P", "Q"] "P or Q" 0.75 ["weakening"],
  rule "double_negation" "Double Negation" .deduction
    ["not not P|it is not the case that not P"] "P" 0.95 ["negated negation"],
  rule "demorgan_and" "De Morgan (AND)" .deduction
    ["not both P and Q|it is not the case that P and Q"] "not P or not Q" 0.9
    ["negated conjunction"],
  rule "demorgan_or" "De Morgan (OR)" .deduction
    ["neither P nor Q|it is not the case that P or Q"] "not P and not Q" 0.9
    ["negated disjunction"],
  rule "categorical_syllogism" "Categorical Syllogism" .deduction
    ["all P are Q|every P is Q", "all Q are R|every Q is R"] "all P are R" 0.9
    ["universal premises", "shared middle term"],
  rule "abductive_inference" "Abductive Inference" .abduction
    ["if P then Q|P implies Q", "Q"] "P may explain Q" 0.6
    ["observed consequent", "candidate cause"],
  rule "analogical_inference" "Analogical Inference" .analogy
    ["P is like Q|P resembles Q", "Q has R"] "P may have R" 0.55 ["structural similarity"]]

/-! ## Modal reasoning -/

def modalOperator (symbol name description : String) (strength : Single) (dual : String)
    (keywords : List String) : ModalOperator :=
  ⟨symbol, name, description, strength, dual, Text.ofStrings keywords⟩

def modalOperators : List ModalOperator := [
  modalOperator "□" "necessity" "It is necessary that" 1.0 "◇"
    ["must", "necessarily", "necessary", "certainly", "definitely"],
  modalOperator "◇" "possibility" "It is possible that" 0.8 "□"
    ["can", "possibly", "possible", "might", "could"],
  modalOperator "B" "belief" "It is believed that" 0.7 ""
    ["believe", "believes", "believed", "think", "thinks"],
  modalOperator "K" "knowledge" "It is known that" 0.9 "" ["know", "knows", "known", "certain"],
  modalOperator "O" "obligation" "It is obligatory that" 0.85 ""
    ["should", "ought", "obligated"],
  modalOperator "P" "permission" "It is permitted that" 0.75 "" ["allowed", "permitted"]]

def modalRule (id name antecedent consequent operator : String) (confidence : Single)
    (evidence : String) : ModalRule :=
  ⟨id, name, antecedent, consequent, operator, confidence, [Text.ofString evidence]⟩

def modalRules : List ModalRule := [
  modalRule "necessity_elimination" "Necessity Elimination" "□A" "A" "necessity" 0.95
    "what is necessary is actual",
  modalRule "possibility_introduction" "Possibility Introduction" "A" "◇A" "possibility" 0.9
    "what is actual is possible",
  modalRule "dual_relation" "Dual Relation" "□A" "¬◇¬A" "any" 0.9
    "necessity and possibility are duals",
  modalRule "knowledge_implies_belief" "Knowledge Implies Belief" "K A" "B A" "knowledge" 0.9
    "knowledge entails belief",
  modalRule "belief_consistency" "Belief Consistency" "B A" "¬B ¬A" "belief" 0.8
    "rational beliefs are consistent"]

/-! ## Probabilistic reasoning -/

def distribution (id name : String) (kind : Distribution.Kind)
    (parameters : List (String × Single)) (low high mean variance : Single)
    (keywords : List String) : Distribution :=
  ⟨id, name, kind, Dict.ofList (parameters.map fun p => (Text.ofString p.1, p.2)), low, high,
    mean, variance, Text.ofStrings keywords⟩

def distributions : List Distribution := [
  distribution "uniform_0_1" "Uniform(0,1)" .continuous [("min", 0), ("max", 1)] 0 1 0.5 (1 / 12)
    ["uniform", "random", "arbitrary", "equally"],
  distribution "normal_0_1" "Normal(0,1)" .continuous [("mean", 0), ("stddev", 1)] (-4) 4 0 1
    ["normal", "gaussian", "bell", "average", "typical"],
  distribution "bernoulli_0_5" "Bernoulli(0.5)" .discrete [("p", 0.5)] 0 1 0.5 0.25
    ["coin", "binary", "either", "toss", "flip"]]

/-! ## Quantum reasoning -/

def quantumOperator (symbol name description : String) (matrix : List (List Single))
    (kind : QuantumOperator.Kind) (strength : Single) (keywords : List String) :
    QuantumOperator :=
  ⟨symbol, name, description, matrix, kind, strength, Text.ofStrings keywords⟩

/-- One over the square root of two. -/
def halfAmplitude : Single := 1 / (2 : Single).sqrt

def quantumOperators : List QuantumOperator := [
  quantumOperator "I" "identity" "Leaves the state unchanged" [[1, 0], [0, 1]] .unitary 1.0
    ["coherence", "coherent"],
  quantumOperator "X" "not" "Flips basis states" [[0, 1], [1, 0]] .unitary 0.9
    ["inversion", "bitflip"],
  quantumOperator "Z" "phase_flip" "Flips the phase of |1>" [[1, 0], [0, -1]] .unitary 0.85
    ["phase"],
  quantumOperator "H" "hadamard" "Creates an equal superposition"
    [[halfAmplitude, halfAmplitude], [halfAmplitude, -halfAmplitude]] .unitary 0.8
    ["superposition", "interference", "wave", "hadamard"],
  quantumOperator "M" "measurement" "Projects onto |0>" [[1, 0], [0, 0]] .measurement 0.95
    ["measurement", "measure", "measured", "particle", "uncertainty", "collapse",
     "decoherence"],
  quantumOperator "E" "entanglement" "Correlates two states"
    [[1, 0, 0, 0], [0, 1, 0, 0], [0, 0, 0, 1], [0, 0, 1, 0]] .entanglement 0.9
    ["entanglement", "entangled"]]

def quantumRule (id name antecedent consequent constraint trigger : String)
    (confidence : Single) (evidence : String) : QuantumRule :=
  ⟨id, name, antecedent, consequent, constraint, trigger, confidence, [Text.ofString evidence]⟩

def quantumRules : List QuantumRule := [
  quantumRule "superposition_measurement" "Superposition Measurement" "state in superposition"
    "measurement yields one basis outcome" "outcome probability equals squared amplitude"
    "measurement" 0.9 "Born rule",
  quantumRule "entanglement_correlation" "Entanglement Correlation" "entangled pair"
    "outcomes are correlated" "correlation is not signalling" "entanglement" 0.85
    "Bell correlations",
  quantumRule "uncertainty_principle" "Uncertainty Principle" "conjugate observables"
    "joint precision is bounded" "sharper position blurs momentum" "measurement" 0.8
    "Heisenberg bound",
  quantumRule "no_cloning" "No Cloning" "unknown state" "state cannot be copied"
    "copying requires prior knowledge" "entanglement" 0.85 "linearity of evolution",
  quantumRule "interference" "Interference" "coherent superposition"
    "amplitudes add before squaring" "phase decides reinforcement" "hadamard" 0.8
    "double slit"]

/-! ## Decisions -/

def decisionRule (id name : String) (kind : DecisionRule.Kind) (description : String)
    (confidence : Single) (evidence : String) : DecisionRule :=
  ⟨id, name, kind, description, confidence, [Text.ofString evidence]⟩

def decisionRules : List DecisionRule := [
  decisionRule "maximax" "Maximax" .maximax "Pick the option with the best possible outcome"
    0.8 "optimistic",
  decisionRule "maximin" "Maximin" .maximin "Pick the option whose worst outcome is best" 0.85
    "pessimistic",
  decisionRule "minimax_regret" "Minimax Regret" .minimaxRegret
    "Pick the option whose largest regret is smallest" 0.75 "regret averse",
  decisionRule "expected_value" "Expected Value" .expectedValue
    "Pick the option with the highest probability-weighted outcome" 0.85 "risk neutral",
  decisionRule "utility_maximization" "Utility Maximization" .utilityMaximization
    "Pick the option with the highest weighted criterion score" 0.9 "multi-criteria"]

/-! ## Domains -/

def domain (name : String) (concepts : List (String × List String))
    (relationships : List (String × String × String)) (patterns : List (String × List String))
    (abstractions : List (String × String)) : Domain where
  name := name
  concepts := Dict.ofList (concepts.map fun c =>
    (Text.ofString c.1, ⟨Text.ofString c.1, Text.ofStrings c.2⟩))
  relationships := relationships.map fun r => ⟨r.1, r.2.1, r.2.2⟩
  patterns := Dict.ofList (patterns.map fun p => (Text.ofString p.1, Text.ofStrings p.2))
  abstractions := Dict.ofList (abstractions.map fun a => (Text.ofString a.1, Text.ofString a.2))

def mathematics : Domain := domain "mathematics"
    [("symmetry", ["symmetry", "invariance", "transformation", "structure"]),
     ("group", ["structure", "symmetry", "composition", "invariance"]),
     ("function", ["transformation", "mapping", "structure"]),
     ("optimization", ["optimization", "constraint", "balance"]),
     ("graph", ["network", "structure", "connection"]),
     ("recursion", ["hierarchy", "cycle", "composition"]),
     ("limit", ["convergence", "equilibrium", "change"]),
     ("proof", ["causality", "structure", "constraint"])]
    [("symmetry", "group", "formalized by"), ("function", "graph", "represented as"),
     ("recursion", "limit", "converges to")]
    [("symmetry", ["symmetry", "group"]), ("transformation", ["function", "symmetry"]),
     ("optimization", ["optimization"]), ("network", ["graph"]), ("hierarchy", ["recursion"]),
     ("equilibrium", ["limit"])]
    [("invariance", "Properties preserved under transformation"),
     ("structure", "Relations that define a system independent of content")]

def physics : Domain := domain "physics"
    [("symmetry", ["symmetry", "invariance", "conservation"]),
     ("conservation", ["conservation", "invariance", "balance"]),
     ("energy", ["energy", "flow", "conservation", "transformation"]),
     ("force", ["causality", "interaction", "change"]),
     ("wave", ["cycle", "signal", "interference", "flow"]),
     ("entropy", ["information", "disorder", "flow", "equilibrium"]),
     ("equilibrium", ["equilibrium", "balance", "stability"]),
     ("field", ["network", "interaction", "flow"])]
    [("symmetry", "conservation", "implies"), ("force", "energy", "transfers"),
     ("entropy", "equilibrium", "drives toward")]
    [("symmetry", ["symmetry", "conservation"]), ("conservation", ["conservation", "energy"]),
     ("equilibrium", ["equilibrium", "entropy"]), ("flow", ["energy", "wave", "field"]),
     ("causality", ["force"]), ("cycle", ["wave"])]
    [("conservation", "Quantities that persist through change"),
     ("causality", "Effects follow from interactions")]

def biology : Domain := domain "biology"
    [("adaptation", ["adaptation", "feedback", "selection", "learning", "resilience"]),
     ("evolution", ["variation", "selection", "adaptation", "growth"]),
     ("homeostasis", ["feedback", "balance", "equilibrium", "stability"]),
     ("cell", ["modularity", "structure", "hierarchy"]),
     ("ecosystem", ["network", "balance", "interaction", "flow"]),
     ("gene", ["information", "memory", "representation", "variation"]),
     ("immunity", ["learning", "memory", "feedback", "adaptation"]),
     ("growth", ["growth", "hierarchy", "optimization"])]
    [("evolution", "adaptation", "produces"), ("gene", "cell", "instructs"),
     ("homeostasis", "ecosystem", "stabilizes")]
    [("adaptation", ["adaptation", "evolution", "immunity"]),
     ("feedback", ["homeostasis", "adaptation", "immunity"]), ("network", ["ecosystem"]),
     ("equilibrium", ["homeostasis"]), ("information", ["gene"]),
     ("hierarchy", ["cell", "growth"])]
    [("adaptation", "Systems change to fit their environment"),
     ("selection", "Variation filtered by fitness")]

def psychology : Domain := domain "psychology"
    [("learning", ["learning", "adaptation", "feedback", "memory"]),
     ("memory", ["memory", "information", "representation", "storage"]),
     ("emotion", ["expression", "signal", "feedback"]),
     ("perception", ["signal", "representation", "information"]),
     ("motivation", ["optimization", "causality", "growth"]),
     ("habit", ["cycle", "reinforcement", "feedback"]),
     ("cognition", ["information", "hierarchy", "representation"])]
    [("perception", "memory", "feeds"), ("learning", "habit", "forms"),
     ("emotion", "motivation", "modulates")]
    [("feedback", ["learning", "emotion", "habit"]),
     ("representation", ["memory", "perception", "cognition"]), ("expression", ["emotion"]),
     ("adaptation", ["learning"]), ("information", ["memory", "perception"])]
    [("expression", "Inner states made visible"),
     ("representation", "Models of the world held in mind")]

def philosophy : Domain := domain "philosophy"
    [("causality", ["causality", "structure", "constraint"]),
     ("logic", ["structure", "inference", "constraint"]),
     ("ethics", ["balance", "value", "constraint"]),
     ("knowledge", ["information", "representation", "truth"]),
     ("identity", ["invariance", "continuity"]),
     ("dialectic", ["transformation", "cycle", "synthesis"])]
    [("logic", "knowledge", "justifies"), ("causality", "ethics", "grounds responsibility in")]
    [("causality", ["causality"]), ("structure", ["logic", "causality"]),
     ("invariance", ["identity"]), ("transformation", ["dialectic"]),
     ("representation", ["knowledge"])]
    [("causality", "Every change has a ground")]

def art : Domain := domain "art"
    [("expression", ["expression", "emotion", "representation", "signal"]),
     ("composition", ["composition", "structure", "balance", "hierarchy"]),
     ("harmony", ["balance", "symmetry", "cycle"]), ("rhythm", ["cycle", "repetition", "flow"]),
     ("contrast", ["variation", "tension", "balance"]),
     ("perspective", ["representation", "transformation", "structure"])]
    [("composition", "harmony", "achieves"), ("contrast", "expression", "intensifies")]
    [("expression", ["expression"]), ("symmetry", ["harmony"]),
     ("balance", ["composition", "harmony", "contrast"]), ("cycle", ["rhythm", "harmony"]),
     ("representation", ["expression", "perspective"])]
    [("expression", "Form carrying feeling"), ("harmony", "Parts agreeing with the whole")]

def technology : Domain := domain "technology"
    [("adaptive system", ["adaptation", "feedback", "learning", "resilience"]),
     ("algorithm", ["optimization", "structure", "transformation"]),
     ("network", ["network", "flow", "redundancy", "interaction"]),
     ("control loop", ["feedback", "balance", "stability", "signal"]),
     ("machine learning", ["learning", "adaptation", "information", "optimization"]),
     ("modular design", ["modularity", "hierarchy", "composition", "structure"]),
     ("cache", ["memory", "storage", "optimization"]),
     ("protocol", ["signal", "information", "constraint"])]
    [("control loop", "adaptive system", "stabilizes"),
     ("machine learning", "algorithm", "tunes"), ("protocol", "network", "governs")]
    [("feedback", ["control loop", "adaptive system"]),
     ("adaptation", ["adaptive system", "machine learning"]), ("network", ["network"]),
     ("optimization", ["algorithm", "machine learning", "cache"]),
     ("hierarchy", ["modular design"]), ("information", ["protocol", "machine learning"])]
    [("control", "Measured output steering input"),
     ("modularity", "Independent parts behind stable interfaces")]

def economics : Domain := domain "economics"
    [("market", ["network", "equilibrium", "feedback", "interaction"]),
     ("price", ["signal", "information", "balance"]),
     ("competition", ["selection", "variation", "optimization"]),
     ("supply chain", ["flow", "network", "hierarchy"]),
     ("investment", ["growth", "optimization", "uncertainty"]),
     ("business cycle", ["cycle", "feedback", "equilibrium"])]
    [("price", "market", "clears"), ("competition", "price", "lowers")]
    [("equilibrium", ["market", "business cycle"]), ("selection", ["competition"]),
     ("flow", ["supply chain"]), ("signal", ["price"]), ("growth", ["investment"])]
    [("equilibrium", "Opposing pressures settling into balance")]

def domains : List Domain :=
  [mathematics, physics, biology, psychology, philosophy, art, technology, economics]

def mapping (sourceDomain targetDomain sourceConcept targetConcept : String) (score : Single)
    (reasoning : String) : Mapping :=
  ⟨sourceDomain, targetDomain, sourceConcept, targetConcept, score, score, reasoning⟩

def mappings : List Mapping := [
  mapping "mathematics" "physics" "symmetry" "symmetry" 0.9
    "Symmetry groups describe conservation laws",
  mapping "biology" "technology" "adaptation" "adaptive system" 0.8
    "Feedback-driven adaptation carries over to engineered systems",
  mapping "psychology" "art" "emotion" "expression" 0.7
    "Emotional states are rendered as artistic expression",
  mapping "philosophy" "physics" "causality" "force" 0.8
    "Causal grounding corresponds to interaction"]

end Seed

/-- Registers the built-in knowledge. -/
def seed (r : Registry) : Except Error Registry := do
  let r ← Seed.axioms.foldlM addAxiom r
  let r ← Seed.inferenceRules.foldlM addInferenceRule r
  let r ← Seed.modalOperators.foldlM addModalOperator r
  let r ← Seed.modalRules.foldlM addModalRule r
  let r ← Seed.distributions.foldlM addDistribution r
  let r ← Seed.quantumOperators.foldlM addQuantumOperator r
  let r ← Seed.quantumRules.foldlM addQuantumRule r
  let r ← Seed.decisionRules.foldlM addDecisionRule r
  let r ← Seed.domains.foldlM addDomain r
  Seed.mappings.foldlM addMapping r

/-- The registry with the built-in knowledge, which no check refuses. -/
def seeded : Registry :=
  match seed empty with
  | .ok r => r
  | .error _ => empty

end Reasoning.Registry
