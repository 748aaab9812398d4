/-
  Batches: one request a line, each a JSON object.

  Blank lines are passed over.  A line that is no request is answered with what is wrong with
  it and with its number, and the next line is read all the same.  Such a line is warned of, too.
-/
import Reasoning.Engine
import Reasoning.Json.Parser

namespace Reasoning.CommandLine

/-- The lines of a text, without the line feeds that end them. -/
def textLines (t : Text) : List Text :=
  let ls := t.splitWhere (· == 10)
  if ls.getLast? = some [] then ls.dropLast else ls

/-! ## Requests -/

/-- Why a line is no request. -/
inductive LineFault where
  | exception (e : Json.Exception)
  | unknownMode

def LineFault.message (w : Json.Wording) : LineFault → Text
  | exception e => w e
  | unknownMode => "unknown mode"

/-- A request to reason about an input. -/
structure BatchRequest where
  mode : Mode
  input : Text
  context : Json

/-- The text of a member, or a default if there is no such member. -/
def textMember (j : Json) (key default : Text) : Except LineFault Text :=
  match j.member? key with
  | none => .ok default
  | some (.string s) => .ok s
  | some v => .error (.exception (.notAText v))

/-- The request of a JSON value.  The mode is looked at before the input. -/
def BatchRequest.ofJson (j : Json) : Except LineFault BatchRequest := do
  if !j.isObject then throw (.exception (.notAnObject j))
  match Mode.ofName? (← textMember j "mode" "classical") with
  | none => throw .unknownMode
  | some mode =>
    return ⟨mode, ← textMember j "input" [], (j.member? "context").getD (.object [])⟩

/-- The request of a line. -/
def BatchRequest.ofLine (t : Text) : Except LineFault BatchRequest :=
  match Json.parse t with
  | .ok j => ofJson j
  | .error f => .error (.exception (.unread t f))

/-! ## Answers -/

/-- The answer to a line. -/
structure LineAnswer where
  number : Nat
  outcome : Except LineFault Result

namespace LineAnswer

def failed (a : LineAnswer) : Bool :=
  match a.outcome with
  | .ok _ => false
  | .error _ => true

def toJson (w : Json.Wording) (a : LineAnswer) : Json :=
  match a.outcome with
  | .ok r => r.toJson
  | .error f => .ofMembers [("line", .ofNat a.number), ("error", .string (f.message w))]

/-- What is warned of with an answer. -/
def warnings (w : Json.Wording) (a : LineAnswer) : List Text :=
  match a.outcome with
  | .ok _ => []
  | .error f =>
    [Text.ofString "[batch] warning: line " ++ Text.ofNat a.number ++ Text.ofString ": " ++
      f.message w]

end LineAnswer

/-- The outcome of a line, and the engine that is left. -/
def answerLine (e : Engine) (t : Text) : Except LineFault Result × Engine :=
  match BatchRequest.ofLine t with
  | .error f => (.error f, e)
  | .ok r =>
    let (result, e) := e.reason r.mode r.input r.context
    (.ok result, e)

/-- Answers lines from the one with the given number on. -/
def answerLines (e : Engine) (number : Nat) : List Text → List LineAnswer × Engine
  | [] => ([], e)
  | t :: ts =>
    if t.trim.isEmpty then answerLines e (number + 1) ts
    else
      let (outcome, e) := answerLine e t
      let (answers, e) := answerLines e (number + 1) ts
      (⟨number, outcome⟩ :: answers, e)

/-- Answers the lines of an input. -/
def answerBatch (e : Engine) (input : Text) : List LineAnswer × Engine :=
  answerLines e 1 (textLines input)

/-- The exit code of a batch. -/
def batchCode (answers : List LineAnswer) : Nat := if answers.any LineAnswer.failed then 2 else 0

end Reasoning.CommandLine
