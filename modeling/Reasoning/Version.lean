/-
  Versions: of the program, and of the form in which results are written.
-/
import Reasoning.Text.Basic

namespace Reasoning

/-- The version of the program. -/
def version : Text := "0.4.0"

/-- A version of the form of results. -/
structure Schema where
  major : Int
  minor : Int
  deriving Repr, DecidableEq

namespace Schema

/-- The version that results are written in. -/
def current : Schema := ⟨1, 0⟩

/-- A reader of this version takes results of another: the major versions agree, and the minor
    version of the other is not older. -/
def accepts (reader other : Schema) : Bool :=
  other.major == reader.major && decide (reader.minor ≤ other.minor)

end Schema

end Reasoning
