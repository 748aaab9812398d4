/-
  Checking an argument by forward chaining.

  From the premises the deductive rules derive statements round by round until the target
  is reached, nothing new appears, or the rounds are used up.  A round works on the
  statements that were known when it began; rules that are nothing but variables take no
  part, and no statement is added beyond `maxStatements`.

  * `Chain` is what is known so far with its derivation;
  * `Chain.take` adds one match, `Chain.round` works through all rules once;
  * `validateArgument` is the whole check.
-/
import Reasoning.Classical.Reason

namespace Reasoning.Classical

/-- The answer to an argument. -/
structure ArgumentCheck where
  valid : Bool
  /-- The rounds that were begun. -/
  rounds : Nat
  derivation : Ledger
  /-- The statements that were derived, in order. -/
  derived : List Text
  deriving DecidableEq

/-- A statement with its line in the derivation. -/
structure Known where
  proposition : Proposition
  seq : Nat
  deriving DecidableEq

/-- What is known so far. -/
structure Chain where
  known : List Known
  derivation : Ledger
  derived : List Text
  /-- The target is among the derived statements. -/
  reached : Bool
  deriving DecidableEq

namespace Chain

/-- The number of statements from which on none is derived. -/
def maxStatements : Nat := 64

def empty : Chain := ⟨[], .empty, [], false⟩

/-- Whether a statement of that canonical form is known. -/
def knows (ch : Chain) (form : Text) : Bool :=
  ch.known.any fun k => k.proposition.text.canonical == form

/-- Adds a premise; one that says nothing or is known already is left out. -/
def addPremise (ch : Chain) (text : Text) : Chain :=
  let t := (Connective.normalize text).trim
  if !t.hasAlnum || ch.knows t.canonical then ch
  else
    let p := Proposition.ofSentence (ch.known.length + 1) t "argument" none
    { ch with
      known := ch.known ++ [⟨p, ch.derivation.nextSeq⟩]
      derivation := ch.derivation.push .premise t "given" p.certainty [] }

/-- Adds a statement that a rule derives. -/
def derive (ch : Chain) (r : InferenceRule) (m : RuleMatch) : Chain :=
  let premises := m.premises.filterMap (ch.known[·]?)
  let confidence := support r.confidence (premises.map (·.proposition.certainty))
  let p := Proposition.ofSentence (ch.known.length + 1) m.conclusion r.id none
  { ch with
    known := ch.known ++ [⟨{ p with certainty := confidence }, ch.derivation.nextSeq⟩]
    derivation := ch.derivation.push .inference m.conclusion r.name confidence
      (premises.map (·.seq))
    derived := ch.derived ++ [m.conclusion] }

/-- Ends the derivation with its last statement, which is the target. -/
def conclude (ch : Chain) (statement : Text) : Chain :=
  let confidence := (ch.known.getLast?.map (·.proposition.certainty)).getD 0
  { ch with
    reached := true
    derivation := ch.derivation.push .conclusion statement "target reached" confidence
      [ch.derivation.size] }

/-- Adds one match, unless the target is reached, the statement is known or refused, or
    there are enough statements. -/
def take (target : Text) (r : InferenceRule) (ch : Chain) (m : RuleMatch) : Chain :=
  if ch.reached || ch.knows m.conclusion.canonical ||
      (rejection? m.conclusion (ch.known.map (·.proposition))).isSome ||
      maxStatements ≤ ch.known.length then ch
  else
    let ch := ch.derive r m
    if m.conclusion.canonical == target then ch.conclude m.conclusion else ch

/-- Adds the matches of a rule on the statements that a round began with. -/
def apply (target : Text) (statements : List (List Text)) (ch : Chain) (r : InferenceRule) :
    Chain :=
  if ch.reached then ch
  else match r.apply statements with
    | .ok ms => ms.foldl (take target r) ch
    | .error _ => ch

/-- Works through the rules once. -/
def round (target : Text) (rules : List InferenceRule) (ch : Chain) : Chain :=
  let statements := ch.known.map fun k => k.proposition.text.tokens
  rules.foldl (apply target statements) ch

/-- Works through the rules for at most so many rounds, and counts the rounds begun. -/
def run (target : Text) (rules : List InferenceRule) : Nat → Chain → Nat → Chain × Nat
  | 0, ch, rounds => (ch, rounds)
  | budget + 1, ch, rounds =>
    let next := ch.round target rules
    if next.reached || next.known.length == ch.known.length then (next, rounds + 1)
    else run target rules budget next (rounds + 1)

end Chain

/-- A rule that takes part in the check: a deduction with an antecedent that is more than a
    variable. -/
def takesPart (r : InferenceRule) : Bool :=
  r.kind = .deduction && !r.antecedents.all fun a => (Pattern.ofText a).isBare

/-- Whether the conclusion follows from the premises within the rounds of the
    configuration. -/
def validateArgument (r : Registry) (c : Config) (premises : List Text) (conclusion : Text) :
    ArgumentCheck :=
  let target := (Connective.normalize conclusion).canonical
  if target.isEmpty then ⟨false, 0, .empty, []⟩
  else
    let start := premises.foldl Chain.addPremise .empty
    if start.knows target then ⟨true, 0, start.derivation, []⟩
    else match axiomInstance? target.tokens r.axioms.items with
      | some a =>
        ⟨true, 0, start.derivation.push .conclusion target
          (Text.ofString "instance of axiom " ++ a.name) 1 [], []⟩
      | none =>
        let (ch, rounds) := start.run target (r.inferenceRules.items.filter takesPart)
          c.maxDerivationRounds 0
        ⟨ch.reached, rounds, ch.derivation, ch.derived⟩

end Reasoning.Classical
