/-
  Proof ledgers.

  A ledger is a list of steps numbered from one.  A step names the earlier steps that it
  rests on, and nothing is ever changed or taken away: `Ledger.append?` refuses a step that
  names itself, a later step or none, and keeps the ledger as it is.
-/
import Reasoning.Score
import Reasoning.Json.Basic

namespace Reasoning

/-- One line of a proof. -/
inductive Step.Kind where
  | premise
  | inference
  | conclusion
  deriving Repr, DecidableEq

namespace Step.Kind

def name : Step.Kind → Text
  | premise => "premise"
  | inference => "inference"
  | conclusion => "conclusion"

/-- The kind with a name; a name that is none stands for a premise. -/
def ofName (s : Text) : Step.Kind :=
  ([inference, conclusion].find? fun k => k.name == s).getD premise

end Step.Kind

/-- A step of a proof: its number, what it says and why, and the steps it rests on. -/
structure Step where
  seq : Nat
  kind : Step.Kind
  content : Text
  justification : Text
  confidence : Single
  refs : List Nat
  deriving DecidableEq

def Step.toJson (s : Step) : Json :=
  .ofMembers [("seq", .ofNat s.seq), ("kind", .string s.kind.name),
    ("content", .string s.content), ("justification", .string s.justification),
    ("confidence", .ofSingle s.confidence), ("refs", .array (s.refs.map .ofNat))]

/-- The steps of a proof in order. -/
structure Ledger where
  steps : List Step
  deriving DecidableEq

namespace Ledger

/-- Why a ledger refuses a request. -/
inductive Error where
  /-- A new step rests on a step that is not there. -/
  | unknownReference (seq : Nat)
  /-- There is no step of that number. -/
  | noStep (seq : Nat)
  deriving Repr, DecidableEq

def Error.message : Error → Text
  | unknownReference seq => Text.ofString "proof step refers to unknown step " ++ Text.ofNat seq
  | noStep seq => Text.ofString "no proof step " ++ Text.ofNat seq

def empty : Ledger := ⟨[]⟩

instance : Inhabited Ledger := ⟨empty⟩

def size (l : Ledger) : Nat := l.steps.length

def isEmpty (l : Ledger) : Bool := l.steps.isEmpty

/-- The number that the next step gets. -/
def nextSeq (l : Ledger) : Nat := l.size + 1

/-- Adds a step whose references are known to be good. -/
def push (l : Ledger) (kind : Step.Kind) (content justification : Text) (confidence : Single)
    (refs : List Nat) : Ledger :=
  ⟨l.steps ++ [⟨l.nextSeq, kind, content, justification, Score.clamp confidence, refs⟩]⟩

/-- A reference that a new step may not have. -/
def badRef? (l : Ledger) (refs : List Nat) : Option Nat :=
  refs.find? fun r => r = 0 || l.nextSeq ≤ r

/-- Adds a step and gives its number with the new ledger. -/
def append? (l : Ledger) (kind : Step.Kind) (content justification : Text)
    (confidence : Single) (refs : List Nat) : Except Error (Nat × Ledger) :=
  match l.badRef? refs with
  | some r => .error (.unknownReference r)
  | none => .ok (l.nextSeq, l.push kind content justification confidence refs)

/-- The step of a number. -/
def at? (l : Ledger) (seq : Nat) : Except Error Step :=
  match seq with
  | 0 => .error (.noStep 0)
  | i + 1 => match l.steps[i]? with
    | some s => .ok s
    | none => .error (.noStep seq)

/-- The number of steps of a kind. -/
def count (l : Ledger) (kind : Step.Kind) : Nat := l.steps.countP fun s => s.kind = kind

/-- The mean of the confidences of the steps. -/
def meanConfidence (l : Ledger) : Single :=
  if l.isEmpty then Score.neutral else Score.mean (l.steps.map (·.confidence))

end Ledger

end Reasoning
