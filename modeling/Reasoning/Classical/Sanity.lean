/-
  Which derived statements are accepted, and which premises are certain.

  * `rejection?`: a statement is refused when it is empty, says of itself that it is
    contradictory, asserts both truth values, or is the negation of a premise or has a
    premise for its negation;
  * `axiomInstance?`: the axiom that a statement is an instance of.
-/
import Reasoning.Classical.Rule
import Reasoning.Pattern
import Reasoning.Proposition

namespace Reasoning

/-- Why a derived statement is refused. -/
inductive Rejection where
  | emptyConclusion
  | contradictionMarker
  | assertsTrueAndFalse
  /-- The statement and the premise are negations of each other. -/
  | negatesPremise (id : Text)
  deriving Repr, DecidableEq

def Rejection.message : Rejection → Text
  | emptyConclusion => "empty conclusion"
  | contradictionMarker => "contradiction marker"
  | assertsTrueAndFalse => "asserts true and false"
  | negatesPremise id =>
    Text.ofString "negates premise " ++ id ++ Text.ofString " (non-contradiction)"

/-- One canonical form is the other with `not` in front. -/
def areNegations (a b : Text) : Bool :=
  a == Text.ofString "not " ++ b || b == Text.ofString "not " ++ a

/-- Why a statement is refused beside some premises, if it is. -/
def rejection? (conclusion : Text) (premises : List Proposition) : Option Rejection :=
  let c := conclusion.canonical
  let ws := c.words
  if c.isEmpty then some .emptyConclusion
  else if Text.hasAnyWord ws ["contradiction", "paradox"] then some .contradictionMarker
  else if ws.contains (Text.ofString "true") && ws.contains (Text.ofString "false") then
    some .assertsTrueAndFalse
  else (premises.find? fun p => areNegations c p.text.canonical).map fun p =>
    .negatesPremise p.id

/-- The first axiom that words are an instance of. -/
def axiomInstance? (ws : List Text) (axioms : List Axiom) : Option Axiom :=
  axioms.find? fun a => ((Pattern.ofText a.statement).fit ws []).isSome

end Reasoning
