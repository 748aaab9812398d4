/-
  The worlds of a modal call.

  The actual world says of each premise whether it is stated without a negation.  The
  registered worlds follow, and then a new world for each operator of necessity or
  possibility, reached from the actual world: it is like the actual world, but in a world
  of a possibility the premise in question goes the other way.
-/
import Reasoning.Config
import Reasoning.Modal.Detection

namespace Reasoning

/-- Whether a text denies something. -/
def Text.isNegated (t : Text) : Bool := Text.hasAnyWord t.words ["not", "no", "never"]

namespace World

/-- The name of the proposition that a premise, counted from zero, states. -/
def propositionOf (premise : Nat) : Text := 'P'.toUInt8 :: Text.ofNat (premise + 1)

/-- The id of a world by number. -/
def idOf (n : Nat) : Text := 'w'.toUInt8 :: Text.ofNat n

/-- The world that every call starts from. -/
def actual (ps : List Proposition) : World where
  id := actualId
  name := "Actual World"
  accessibleFrom := []
  propositions := Dict.ofList (ps.zipIdx.map fun (p, i) => (propositionOf i, !p.text.isNegated))
  accessibility := []

/-- The first number from `n` on whose id no world has.  Among one more number than there
    are worlds one is free. -/
def freshNumber (worlds : List World) (n : Nat) : Nat :=
  ((List.range' n (worlds.length + 1)).find? fun i => !worlds.any fun w => w.id == idOf i).getD n

/-- The world that an operator opens, if it is a necessity or a possibility. -/
def opened? (c : Config) (actual : World) (d : Detection) (id : Text) : Option World :=
  if d.operator.name == Text.ofString "possibility" then
    let p := propositionOf d.premise
    some {
      id := id
      name := "Possible World"
      accessibleFrom := [actualId]
      propositions := actual.propositions.insert p (!(actual.propositions.get? p).getD false)
      accessibility := [(actualId, c.possibilityWeight)] }
  else if d.operator.name == Text.ofString "necessity" then
    some {
      id := id
      name := "Necessary World"
      accessibleFrom := [actualId]
      propositions := actual.propositions
      accessibility := [(actualId, c.necessityWeight)] }
  else none

/-- Adds the worlds that operators open, each under the next free number. -/
def addOpened (c : Config) (actual : World) : List Detection → Nat → List World → List World
  | [], _, ws => ws
  | d :: ds, n, ws =>
    let k := freshNumber ws n
    match opened? c actual d (idOf k) with
    | some w => addOpened c actual ds (k + 1) (ws ++ [w])
    | none => addOpened c actual ds n ws

/-- The worlds of a call. -/
def build (c : Config) (registered : List World) (ps : List Proposition)
    (ds : List Detection) : List World :=
  let ws := actual ps :: registered
  addOpened c (actual ps) ds ws.length ws

/-- The world is the actual one or reached from it. -/
def isReachable (w : World) : Bool := w.id == actualId || w.accessibleFrom.contains actualId

/-- What the reachable worlds say of a proposition, where they say anything. -/
def verdicts (ws : List World) (proposition : Text) : List Bool :=
  ws.filterMap fun w => if w.isReachable then w.propositions.get? proposition else none

end World

end Reasoning
