/-
  States named in a text.

  Kets like `|x>` are the parts of one superposition; phrases like "x superposition",
  "x entangled" and "x quantum state" name a state each; the context adds states of its own.
  A state that has no phase gets one from the share of wave words in the text.
-/
import Reasoning.Json.Basic
import Reasoning.Score
import Reasoning.Text.Regex
import Reasoning.Text.Words

namespace Reasoning

structure QuantumState where
  id : Text
  name : Text
  /-- From zero to one. -/
  amplitude : Single
  /-- From zero to a full turn. -/
  phase : Single
  superposition : Dict Single
  entangledWith : List Text
  /-- Assumed, not read from the input. -/
  synthesized : Bool
  deriving DecidableEq

namespace QuantumState

def toJson (s : QuantumState) : Json :=
  .ofMembers [("id", .string s.id), ("name", .string s.name),
    ("amplitude", .ofSingle s.amplitude), ("phase", .ofSingle s.phase),
    ("superposition", .ofDict .ofSingle s.superposition),
    ("entangled_with", .ofTexts s.entangledWith), ("synthesized", .bool s.synthesized)]

def ofJson (j : Json) : QuantumState where
  id := j.textField "id" []
  name := j.textField "name" []
  amplitude := j.anyNumberField "amplitude" 0
  phase := j.anyNumberField "phase" 0
  superposition := j.dictField "superposition" Json.numberOrZero
  entangledWith := j.textsField "entangled_with"
  synthesized := j.boolField "synthesized"

/-! ## Phases and amplitudes -/

/-- A full turn. -/
def fullTurn : Single := 6.28318530718

/-- The angle from zero to a full turn that is the same direction. -/
def wrapPhase (phase : Single) : Single :=
  let p := phase.rem fullTurn
  let p := if p < 0 then p + fullTurn else p
  if fullTurn ≤ p then 0 else p

/-- The amplitude of either of two equal parts. -/
def evenAmplitude : Single := 1 / (2 : Single).sqrt

/-- Both basis states in equal parts. -/
def evenSuperposition : Dict Single :=
  Dict.ofList [(Text.ofString "0", 0.5), (Text.ofString "1", 0.5)]

/-- The state that is assumed when operators have none to act on. -/
def default : QuantumState :=
  ⟨"q0", "default", evenAmplitude, 0, evenSuperposition, [], true⟩

/-- The id of the state that comes after `count` others. -/
def idAfter (count : Nat) : Text := 'q'.toUInt8 :: Text.ofNat (count + 1)

/-! ## Kets -/

def isLabel (b : UInt8) : Bool := Regex.isName b || b == '+'.toUInt8 || b == '-'.toUInt8

open Regex in
/-- A label between a bar and an angle. -/
def ket : Regex :=
  ofList [exactly "|", group 1 (atLeastOne isLabel), alt (exactly "⟩") (exactly ">")]

/-- The distinct labels of the kets of a text. -/
def labels (input : Text) : List Text := Text.distinct ((ket.all input).map (·.piece 1))

/-- The state of a ket beside all kets of the text. -/
def ofLabel (labels : List Text) (label : Text) (index : Nat) : QuantumState :=
  let share : Single := 1 / .ofNat labels.length
  { id := idAfter index
    name := Text.ofString "|" ++ label ++ Text.ofString ">"
    amplitude := share.sqrt
    phase := 0
    superposition := Dict.ofList (labels.map fun l => (l, share))
    entangledWith := []
    synthesized := false }

def ofLabels (labels : List Text) : List QuantumState :=
  labels.zipIdx.map fun (label, i) => ofLabel labels label i

/-! ## Phrases -/

open Regex in
/-- A name in front of a word for a state. -/
def phrase : Regex :=
  ofList [boundary, group 1 (seq (byte Byte.isAlpha) (many isName)), space,
    group 2 (oneOf [word "superposition", word "entangled", word "quantum state"]), boundary]

/-- The phrases of a text as name and kind in small letters, the first of each name. -/
def phrases (input : Text) : List (Text × Text) :=
  let found := (phrase.all input).map fun m => ((m.piece 1).lower, (m.piece 2).lower)
  let named := found.filter fun f => !Text.isStopWord f.1 && f.1 != Text.ofString "quantum"
  named.foldl (fun kept f => if kept.any (·.1 == f.1) then kept else kept ++ [f]) []

def ofPhrase (phrase : Text × Text) (index : Nat) : QuantumState where
  id := idAfter index
  name := phrase.1
  amplitude := evenAmplitude
  phase := 0
  superposition := if phrase.2 == Text.ofString "superposition" then evenSuperposition else []
  entangledWith := []
  synthesized := false

/-- The states of the phrases of a text, after `count` others; those that are called
    entangled are entangled with each other. -/
def ofPhrases (phrases : List (Text × Text)) (count : Nat) : List QuantumState :=
  let states := phrases.zipIdx.map fun (f, i) => (ofPhrase f (count + i), f.2)
  let entangled := (states.filter fun s => s.2 == Text.ofString "entangled").map (·.1.id)
  states.map fun (s, _) =>
    if entangled.contains s.id then { s with entangledWith := entangled.filter (· != s.id) } else s

/-! ## Context -/

/-- The state that an entry of a context describes, after `count` others. -/
def ofContextValue? (count : Nat) (entry : Json) : Option QuantumState :=
  if !entry.isObject then none
  else
    let id := entry.textField "id" (idAfter count)
    let parts := ((entry.member? "superposition").getD .null).members
    some {
      id := id
      name := entry.textField "name" id
      amplitude := Score.clamp (entry.numberField "amplitude" evenAmplitude)
      phase := wrapPhase (entry.numberField "phase" 0)
      superposition := parts.filterMap fun (k, v) => v.number?.map fun x => (k, Score.clamp x)
      entangledWith := entry.textsField "entangledWith"
      synthesized := false }

/-- Adds the states of the entries of a context. -/
def addEntries (states : List QuantumState) (entries : List Json) : List QuantumState :=
  entries.foldl (fun ss e => ss ++ (ofContextValue? ss.length e).toList) states

/-! ## All states -/

/-- The phase that a text gives to states without one: the share of its wave words in a full
    turn. -/
def textPhase (ws : List Text) : Single :=
  let waves := ws.countP fun w => (Text.ofStrings ["phase", "interference", "wave"]).contains w
  (fullTurn * .ofNat waves / .ofNat ws.length).rem fullTurn

/-- Gives a phase to a state that has none. -/
def withPhase (phase : Single) (s : QuantumState) : QuantumState :=
  if s.phase.same 0 then { s with phase := phase } else s

/-- The states of an input and its context. -/
def extract (input : Text) (context : Json) : List QuantumState :=
  let kets := ofLabels (labels input)
  let states := addEntries (kets ++ ofPhrases (phrases input) kets.length)
    (context.listField "quantumStates")
  let ws := input.words
  if ws.isEmpty then states else states.map (withPhase (textPhase ws))

end QuantumState

end Reasoning
