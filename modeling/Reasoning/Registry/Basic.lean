/-
  The registry: the knowledge that every engine reasons with.

  Rules, operators, worlds, distributions, choices, criteria and domains are kept in
  catalogues, mappings in a list that only grows.  A record enters through a registration
  that checks it and clamps its scores; a record that is refused changes nothing.

  * `Registry.Error`: why a record is refused;
  * `Registry.addWorld`: a world may only name worlds that are there, itself included;
  * `Registry.addDomain`: a pattern may only name concepts of its domain.
-/
import Reasoning.Catalogue
import Reasoning.Classical.Rule
import Reasoning.Decision.Choice
import Reasoning.Domain.Basic
import Reasoning.Modal.Operator
import Reasoning.Probability.Distribution
import Reasoning.Quantum.Operator
import Reasoning.Score

namespace Reasoning

structure Registry where
  axioms : Catalogue Axiom
  inferenceRules : Catalogue InferenceRule
  modalOperators : Catalogue ModalOperator
  modalRules : Catalogue ModalRule
  worlds : Catalogue World
  distributions : Catalogue Distribution
  quantumOperators : Catalogue QuantumOperator
  quantumRules : Catalogue QuantumRule
  choices : Catalogue (Choice Single)
  criteria : Catalogue (Criterion Single)
  decisionRules : Catalogue DecisionRule
  domains : Catalogue Domain
  mappings : List Mapping

namespace Registry

def empty : Registry :=
  ⟨.empty, .empty, .empty, .empty, .empty, .empty, .empty, .empty, .empty, .empty, .empty,
    .empty, []⟩

instance : Inhabited Registry := ⟨empty⟩

/-! ## Refusals -/

/-- The kinds of records that have a key of their own. -/
inductive Kind where
  | logicalAxiom
  | inferenceRule
  | modalOperator
  | modalRule
  | world
  | distribution
  | quantumOperator
  | quantumRule
  | choice
  | criterion
  | decisionRule
  | domain
  deriving Repr, DecidableEq

namespace Kind

def name : Kind → Text
  | logicalAxiom => "axiom"
  | inferenceRule => "inference rule"
  | modalOperator => "modal operator"
  | modalRule => "modal rule"
  | world => "modal world"
  | distribution => "distribution"
  | quantumOperator => "quantum operator"
  | quantumRule => "quantum rule"
  | choice => "decision option"
  | criterion => "decision criterion"
  | decisionRule => "decision rule"
  | domain => "domain"

/-- What the key of a record is called. -/
def keyName : Kind → Text
  | modalOperator | quantumOperator => "symbol"
  | domain => "name"
  | _ => "id"

end Kind

/-- Why a record is refused. -/
inductive Error where
  | noKey (kind : Kind)
  | noName (kind : Kind) (key : Text)
  | noStatement (id : Text)
  | noAntecedent (id : Text)
  | noConsequent (id : Text)
  /-- The id of the world that every call starts from cannot be taken. -/
  | reservedWorld
  | unknownWorld (id world : Text)
  | invertedSupport (id : Text)
  | negativeVariance (id : Text)
  | noMatrix (symbol : Text)
  | notSquare (symbol : Text)
  | negativeWeight (id : Text)
  /-- A pattern names a concept that the domain does not have. -/
  | unknownConcept (domain pattern concept : Text)
  | noMappedDomains
  deriving Repr, DecidableEq

/-- What is said of the record of a kind and key. -/
def Kind.about (kind : Kind) (key : Text) (what : Text) : Text :=
  kind.name ++ Text.ofString " '" ++ key ++ Text.ofString "': " ++ what

def Error.message : Error → Text
  | noKey kind => kind.name ++ Text.ofString ": " ++ kind.keyName ++ Text.ofString " is required"
  | noName kind key => kind.about key "name is required"
  | noStatement id => Kind.logicalAxiom.about id "statement is required"
  | noAntecedent id => Kind.inferenceRule.about id "needs an antecedent"
  | noConsequent id => Kind.inferenceRule.about id "needs a consequent"
  | reservedWorld => "modal world: id 'w0' is reserved for the actual world"
  | unknownWorld id world =>
    Kind.world.about id (Text.ofString "unknown world '" ++ world ++ Text.ofString "'")
  | invertedSupport id => Kind.distribution.about id "support is inverted"
  | negativeVariance id => Kind.distribution.about id "negative variance"
  | noMatrix symbol => Kind.quantumOperator.about symbol "matrix is required"
  | notSquare symbol => Kind.quantumOperator.about symbol "matrix must be square"
  | negativeWeight id => Kind.criterion.about id "negative weight"
  | unknownConcept domain pattern concept =>
    Kind.domain.about domain (Text.ofString "pattern '" ++ pattern ++
      Text.ofString "' names unknown concept '" ++ concept ++ Text.ofString "'")
  | noMappedDomains => "mapping: source and target domains are required"

/-- Goes on if the condition holds. -/
def require (ok : Bool) (e : Error) : Except Error Unit := if ok then .ok () else .error e

/-- Goes on if the condition holds of every element; the first that fails is the fault. -/
def requireAll {α : Type} (xs : List α) (ok : α → Bool) (e : α → Error) : Except Error Unit :=
  match xs.find? fun x => !ok x with
  | some x => .error (e x)
  | none => .ok ()

/-- A record needs a key and a name. -/
def requireNamed (kind : Kind) (key name : Text) : Except Error Unit := do
  require (!key.isEmpty) (.noKey kind)
  require (!name.isEmpty) (.noName kind key)

/-! ## Registration -/

def addAxiom (r : Registry) (a : Axiom) : Except Error Registry := do
  requireNamed .logicalAxiom a.id a.name
  require (!a.statement.isEmpty) (.noStatement a.id)
  return { r with axioms := r.axioms.upsert a.id a }

def addInferenceRule (r : Registry) (rule : InferenceRule) : Except Error Registry := do
  requireNamed .inferenceRule rule.id rule.name
  require (!rule.antecedents.isEmpty) (.noAntecedent rule.id)
  require (!rule.consequent.isEmpty) (.noConsequent rule.id)
  let rule := { rule with confidence := Score.clamp rule.confidence }
  return { r with inferenceRules := r.inferenceRules.upsert rule.id rule }

def addModalOperator (r : Registry) (o : ModalOperator) : Except Error Registry := do
  requireNamed .modalOperator o.symbol o.name
  let o := { o with strength := Score.clamp o.strength }
  return { r with modalOperators := r.modalOperators.upsert o.symbol o }

def addModalRule (r : Registry) (rule : ModalRule) : Except Error Registry := do
  requireNamed .modalRule rule.id rule.name
  let rule := { rule with confidence := Score.clamp rule.confidence }
  return { r with modalRules := r.modalRules.upsert rule.id rule }

/-- Whether a world that is registered under `own` may name the world `id`. -/
def knowsWorld (r : Registry) (own id : Text) : Bool :=
  id == World.actualId || id == own || r.worlds.contains id

def addWorld (r : Registry) (w : World) : Except Error Registry := do
  requireNamed .world w.id w.name
  require (w.id != World.actualId) .reservedWorld
  requireAll (w.accessibleFrom ++ w.accessibility.keys) (r.knowsWorld w.id) (.unknownWorld w.id)
  let w := { w with accessibility := w.accessibility.mapValues Score.clamp }
  return { r with worlds := r.worlds.upsert w.id w }

def addDistribution (r : Registry) (d : Distribution) : Except Error Registry := do
  requireNamed .distribution d.id d.name
  require (d.supportLow ≤ d.supportHigh) (.invertedSupport d.id)
  require ((0 : Single) ≤ d.variance) (.negativeVariance d.id)
  return { r with distributions := r.distributions.upsert d.id d }

def addQuantumOperator (r : Registry) (o : QuantumOperator) : Except Error Registry := do
  requireNamed .quantumOperator o.symbol o.name
  require (!o.matrix.isEmpty) (.noMatrix o.symbol)
  require (o.matrix.all fun row => row.length == o.matrix.length) (.notSquare o.symbol)
  let o := { o with strength := Score.clamp o.strength }
  return { r with quantumOperators := r.quantumOperators.upsert o.symbol o }

def addQuantumRule (r : Registry) (rule : QuantumRule) : Except Error Registry := do
  requireNamed .quantumRule rule.id rule.name
  let rule := { rule with confidence := Score.clamp rule.confidence }
  return { r with quantumRules := r.quantumRules.upsert rule.id rule }

def addChoice (r : Registry) (c : Choice Single) : Except Error Registry := do
  requireNamed .choice c.id c.name
  let c := { c with
    criteriaScores := c.criteriaScores.mapValues Score.clamp
    utilities := c.utilities.mapValues Score.clamp
    risks := c.risks.mapValues Score.clamp
    confidence := Score.clamp c.confidence }
  return { r with choices := r.choices.upsert c.id c }

def addCriterion (r : Registry) (c : Criterion Single) : Except Error Registry := do
  requireNamed .criterion c.id c.name
  require ((0 : Single) ≤ c.weight) (.negativeWeight c.id)
  let c := { c with importance := Score.clamp c.importance }
  return { r with criteria := r.criteria.upsert c.id c }

def addDecisionRule (r : Registry) (rule : DecisionRule) : Except Error Registry := do
  requireNamed .decisionRule rule.id rule.name
  let rule := { rule with confidence := Score.clamp rule.confidence }
  return { r with decisionRules := r.decisionRules.upsert rule.id rule }

def addDomain (r : Registry) (d : Domain) : Except Error Registry := do
  require (!d.name.isEmpty) (.noKey .domain)
  requireAll (d.patterns.flatMap fun p => p.2.map fun c => (p.1, c))
    (fun m => d.concepts.contains m.2) fun m => .unknownConcept d.name m.1 m.2
  return { r with domains := r.domains.upsert d.name d }

def addMapping (r : Registry) (m : Mapping) : Except Error Registry := do
  require (!m.sourceDomain.isEmpty && !m.targetDomain.isEmpty) .noMappedDomains
  let m := { m with similarity := Score.clamp m.similarity, confidence := Score.clamp m.confidence }
  return { r with mappings := r.mappings ++ [m] }

end Registry

end Reasoning
