/-
  Measurements, and the operators that a text names.

  A measurement takes one linear step: the first row of the operator on the amplitude of the
  state and its complement.  The state collapses when the strength of the operator times the
  dominant probability reaches a threshold.
-/
import Reasoning.Quantum.Operator
import Reasoning.Quantum.State
import Reasoning.Text.Search

namespace Reasoning

/-- The outcome of an operator on a state. -/
structure Measurement where
  state : Text
  operator : Text
  /-- The basis state, zero or one. -/
  result : Nat
  probability : Single
  collapsed : Bool
  deriving DecidableEq

namespace Measurement

def toJson (m : Measurement) : Json :=
  .ofMembers [("state", .string m.state), ("operator", .string m.operator),
    ("result", .ofNat m.result), ("probability", .ofSingle m.probability),
    ("collapsed", .bool m.collapsed)]

/-- Measures a state.  Entries that the first row lacks are those of the identity. -/
def measure (s : QuantumState) (o : QuantumOperator) (threshold : Single) : Measurement :=
  let a := Score.clamp s.amplitude
  let row := o.matrix.head?.getD []
  let applied := row[0]?.getD 1 * a + row[1]?.getD 0 * (1 - a)
  let probability := Score.clamp (a * a)
  { state := s.id
    operator := o.symbol
    result := if (0.5 : Single) < applied then 1 else 0
    probability := probability
    collapsed := threshold ≤ o.strength * probability.larger (1 - probability) }

end Measurement

namespace QuantumOperator

/-- Whether a symbol is applied to a ket or to something in parentheses. -/
def isApplied (input symbol : Text) : Bool :=
  let opens (b : UInt8) : Bool := b == '|'.toUInt8 || b == '('.toUInt8
  (input.findWhere symbol fun previous rest =>
    !previous.any Byte.isWord && rest.head?.any opens).isSome

/-- The operators that an input applies or has a keyword of. -/
def detect (input : Text) (os : List QuantumOperator) : List QuantumOperator :=
  let ws := input.words
  os.filter fun o => isApplied input o.symbol || o.keywords.any fun k => ws.contains k.lower

end QuantumOperator

end Reasoning
