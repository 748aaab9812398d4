/-
  Modal operators in a text.

  An operator is detected by its symbol, its name or one of its keywords, whichever stands
  first in the input.  A symbol of ASCII letters counts only where it is applied to
  something in parentheses.  A detection points at the first premise with its trigger.
-/
import Reasoning.Modal.Operator
import Reasoning.Proposition
import Reasoning.Text.Search
import Reasoning.Text.Words

namespace Reasoning

/-- Whether all bytes are ASCII. -/
def Text.isAscii (t : Text) : Bool := t.all (· < 0x80)

/-- The offset at which a symbol is applied: no word byte before it, and behind it, maybe
    after spaces, a parenthesis. -/
def Text.findApplication (t symbol : Text) : Option Nat :=
  t.findWhere symbol fun previous rest =>
    !previous.any Byte.isWord &&
      (rest.dropWhile (· == ' '.toUInt8)).head? == some '('.toUInt8

/-- An operator that was detected. -/
structure Detection where
  operator : ModalOperator
  /-- The offset of the trigger in the input. -/
  position : Nat
  /-- The symbol, name or keyword that stands there. -/
  trigger : Text
  /-- The premise that the operator is on, counted from zero. -/
  premise : Nat
  deriving DecidableEq

namespace Detection

/-- Where each trigger of an operator stands first in the input. -/
def triggers (input : Text) (o : ModalOperator) : List (Nat × Text) :=
  let atSymbol :=
    if o.symbol.isAscii then input.findApplication o.symbol else input.find? o.symbol
  let small := input.lower
  let atWord (w : Text) := (small.findWord w.lower).map fun p => (p, w)
  ((atSymbol.map fun p => (p, o.symbol)) :: (o.name :: o.keywords).map atWord).filterMap id

/-- The trigger that stands first; of several at one place the first of the list. -/
def firstTrigger? : List (Nat × Text) → Option (Nat × Text)
  | [] => none
  | t :: ts => some (ts.foldl (fun best u => if u.1 < best.1 then u else best) t)

/-- Whether a trigger stands in the text of a premise. -/
def triggers? (trigger premise : Text) : Bool :=
  (premise.lower.findWord trigger.lower).isSome ||
    (!(trigger.isAscii && 1 < trigger.length) && premise.contains trigger)

/-- The premise that a trigger stands in, the first premise if it stands in none. -/
def premiseOf (trigger : Text) (ps : List Proposition) : Nat :=
  (ps.findIdx? fun p => triggers? trigger p.text).getD 0

/-- The detection of an operator, if it has a trigger in the input. -/
def ofOperator? (input : Text) (ps : List Proposition) (o : ModalOperator) : Option Detection :=
  (firstTrigger? (triggers input o)).map fun (position, trigger) =>
    ⟨o, position, trigger, premiseOf trigger ps⟩

/-- The operators of an input in the order of their triggers. -/
def detect (input : Text) (os : List ModalOperator) (ps : List Proposition) : List Detection :=
  (os.filterMap (ofOperator? input ps)).mergeSort fun a b => a.position ≤ b.position

end Detection

end Reasoning
