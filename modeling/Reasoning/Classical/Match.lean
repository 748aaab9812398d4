/-
  Where a rule applies.

  Each antecedent of a rule has to fit a premise of its own, under bindings that grow from
  one antecedent to the next.  `InferenceRule.apply` lists the ways in which a rule applies
  to some premises, in the order of the premises it takes, at most `maxMatches` of them and
  each conclusion once.
-/
import Reasoning.Classical.Rule
import Reasoning.Pattern

namespace Reasoning

/-- One way in which a rule applies: the premises it takes and what follows. -/
structure RuleMatch where
  bindings : Bindings
  /-- The premises of the antecedents, counted from zero. -/
  premises : List Nat
  conclusion : Text
  deriving DecidableEq

namespace InferenceRule

/-- Why a rule cannot be applied. -/
inductive Fault where
  | emptyAntecedent (id : Text)
  /-- A match leaves a variable of the consequent without words. -/
  | unbound (name : Text)
  deriving Repr, DecidableEq

def Fault.message : Fault → Text
  | emptyAntecedent id =>
    Text.ofString "rule " ++ id ++ Text.ofString " has an empty antecedent"
  | unbound x => Text.ofString "unbound variable " ++ x

/-- The number of matches of a rule that are looked at. -/
def maxMatches : Nat := 16

/-- Bindings, and the premises they come from, the latest first. -/
abbrev Selection := Bindings × List Nat

/-- Whether the premise `i` may come next.  Between antecedents that are nothing but a
    variable the premises keep their order. -/
def mayTake (ordered : Bool) (used : List Nat) (i : Nat) : Bool :=
  !used.contains i && !(ordered && used.head?.any fun last => i < last)

/-- Adds to `found` the ways to go on from a selection with the patterns that are left,
    until there are enough; `bare` says that the last pattern was nothing but a variable. -/
def select (premises : List (List Text × Nat)) :
    List Pattern → Bool → Selection → List Selection → List Selection
  | [], _, s, found => if maxMatches ≤ found.length then found else found ++ [s]
  | p :: ps, bare, (b, used), found =>
    premises.foldl
      (fun found (ws, i) =>
        if maxMatches ≤ found.length then found
        else if mayTake (bare && p.isBare) used i then
          match p.fit ws b with
          | some b' => select premises ps p.isBare (b', i :: used) found
          | none => found
        else found)
      found

/-- The patterns of the antecedents, each with at least one word. -/
def patterns (r : InferenceRule) : Except Fault (List Pattern) :=
  let ps := r.antecedents.map Pattern.ofText
  if ps.any Pattern.isEmpty then .error (.emptyAntecedent r.id) else .ok ps

/-- The match that a selection makes. -/
def matchOf (r : InferenceRule) (s : Selection) : Except Fault RuleMatch :=
  match instantiate r.consequent s.1 with
  | .ok c => .ok ⟨s.1, s.2.reverse, c⟩
  | .error x => .error (.unbound x)

/-- Leaves out matches whose conclusion an earlier one has. -/
def distinctConclusions (ms : List RuleMatch) : List RuleMatch :=
  ms.foldl
    (fun kept m =>
      if kept.any fun k => Text.canonical k.conclusion == Text.canonical m.conclusion then kept
      else kept ++ [m])
    []

/-- The ways in which the rule applies to premises given as words. -/
def apply (r : InferenceRule) (premises : List (List Text)) : Except Fault (List RuleMatch) := do
  let ps ← r.patterns
  if premises.length < ps.length then .ok []
  else
    let ms ← (select premises.zipIdx ps false ([], []) []).mapM r.matchOf
    .ok (distinctConclusions ms)

end InferenceRule

end Reasoning
