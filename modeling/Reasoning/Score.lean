/-
  Scores.

  A score is a number from zero to one in single precision: how certain a premise is, how
  confident a conclusion, how strong an operator.  `Score.clamp` makes one of any number.
-/
import Reasoning.Numeric.Binary

namespace Reasoning.Score

/-- The score nearest to a number; `nan` gives zero. -/
def clamp (x : Single) : Single := if x.isNaN then 0 else x.clamp 0 1

/-- The score of what nothing is known about. -/
def neutral : Single := 0.5

/-- The mean of some numbers, added in their order. -/
def mean (xs : List Single) : Single := xs.foldl (· + ·) 0 / .ofNat xs.length

end Reasoning.Score
