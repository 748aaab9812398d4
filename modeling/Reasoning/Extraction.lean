/-
  From a text to premises.

  This is the front of every engine: `Extraction.extract` makes a premise of each sentence
  of the input and of each premise that the context adds, and measures how complex the
  input is.  The same text always gives the same premises and scores.
-/
import Reasoning.Connective
import Reasoning.Proposition
import Reasoning.Text.Sentence

namespace Reasoning

namespace Vocabulary

/-- Words with the domain they speak of. -/
def domains : List (String × List String) := [
  ("mathematics", ["equation", "number", "theorem", "proof", "function", "geometry", "algebra",
    "symmetry", "calculus"]),
  ("physics", ["energy", "force", "mass", "particle", "wave", "gravity", "momentum", "entropy",
    "quantum"]),
  ("biology", ["cell", "gene", "evolution", "organism", "species", "adaptation", "ecosystem",
    "protein"]),
  ("psychology", ["mind", "emotion", "behavior", "behaviour", "perception", "memory",
    "motivation", "cognition"]),
  ("philosophy", ["truth", "ethics", "existence", "logic", "causality", "belief"]),
  ("art", ["color", "colour", "composition", "expression", "beauty", "music", "painting"]),
  ("technology", ["system", "software", "algorithm", "network", "computer", "data", "machine",
    "code"]),
  ("economics", ["market", "price", "trade", "investment", "demand", "supply"])]

/-- The domain that a word speaks of. -/
def domainOf? (w : Text) : Option Text :=
  (domains.find? fun d => (Text.ofStrings d.2).contains w).map fun d => d.1

/-- Words for abstract concepts. -/
def concepts : List Text := Text.ofStrings
  ["system", "intelligence", "intelligent", "knowledge", "truth", "structure", "pattern",
   "relation", "relationship", "cause", "causality", "meaning", "information", "complexity",
   "emergence", "balance", "change", "order", "identity", "freedom", "value", "process",
   "principle", "concept"]

end Vocabulary

namespace Proposition

/-- What a statement with these words is taken for. -/
def Kind.ofWords (ws : List Text) : Kind :=
  if Text.hasAnyWord ws ["all", "every", "each"] then .fact
  else if Text.hasAnyWord ws ["if", "when", "suppose"] then .hypothesis
  else if Text.hasAnyWord ws ["some", "many", "most"] then .observation
  else .assumption

/-- How certain a statement with these words is: a short clause, a copula and being no
    question speak for it, hedging against. -/
def certaintyOf (ws : List Text) (question : Bool) : Single :=
  let c : Single := 0.6
  let c := if ws.length ≤ 12 then c + 0.1 else c
  let c := if Text.hasAnyWord ws ["is", "are"] then c + 0.15 else c
  let c := if question then c else c + 0.15
  let c := if Text.hasAnyWord ws ["maybe", "perhaps", "possibly", "might"] then c - 0.15 else c
  Score.clamp c

/-- The premise of a number that a sentence states; `terminator` is the byte that ended the
    sentence. -/
def ofSentence (index : Nat) (text source : Text) (terminator : Option UInt8) : Proposition :=
  let ws := text.words
  { id := 'p'.toUInt8 :: Text.ofNat index
    text := text
    certainty := certaintyOf ws (terminator == some '?'.toUInt8 || text.contains "?")
    kind := .ofWords ws
    source := source }

/-- The premise of a number that an entry of a context states: a text, or an object with a
    statement and what is known about it. -/
def ofContextValue? (index : Nat) (entry : Json) : Option Proposition := do
  let given := entry.text?
  let text ← given <|> ((entry.member? "statement").bind Json.text?)
  let text := text.trim
  if !text.hasAlnum then none
  else
    let p := ofSentence index text "context" none
    if given.isSome then some p
    else
      let kind := (entry.member? "kind").bind Json.text?
      let certainty := (entry.member? "certainty").bind Json.number?
      let source := (entry.member? "source").bind Json.text?
      some { p with
        kind := (kind.map Kind.ofName).getD p.kind
        certainty := (certainty.map Score.clamp).getD p.certainty
        source := source.getD p.source }

/-- Adds the premises of the entries of a context, numbered on. -/
def addEntries (ps : List Proposition) (entries : List Json) : List Proposition :=
  entries.foldl (fun ps e => ps ++ (ofContextValue? (ps.length + 1) e).toList) ps

end Proposition

/-- What a text and its context give to reason from. -/
structure Extraction where
  premises : List Proposition
  connectives : List Connective
  /-- Words of the text with the domain they speak of. -/
  domainTerms : Dict Text
  concepts : List Text
  complexity : Single
  wordCount : Nat
  deriving DecidableEq

namespace Extraction

/-- The premises that the sentences of a text state. -/
def inputPremises (text : Text) : List Proposition :=
  text.sentences.zipIdx.map fun (s, i) =>
    Proposition.ofSentence (i + 1) s.text "input" s.terminator

/-- How complex a text is, by its connectives, its abstract concepts and its length. -/
def complexityOf (occurrences concepts words : Nat) : Single :=
  let c : Single := 0.1
  let c := c + (0.3 : Single).smaller (0.05 * .ofNat occurrences)
  let c := c + (0.3 : Single).smaller (0.1 * .ofNat concepts)
  let c := c + (0.3 : Single).smaller (.ofNat words / 100)
  Score.clamp c

/-- The premises of an input and its context, and the measures of the input. -/
def extract (input : Text) (context : Json) : Extraction :=
  let text := Connective.normalize input
  let ws := text.words
  let scan := Connective.scan ws
  let concepts := Text.distinct (ws.filter Vocabulary.concepts.contains)
  let terms := ws.filterMap fun w => (Vocabulary.domainOf? w).map fun d => (w, d)
  { premises := Proposition.addEntries (inputPremises text)
      ((context.arrayField? "premises").getD [])
    connectives := scan.kinds
    domainTerms := Dict.ofList terms
    concepts := concepts
    complexity := complexityOf scan.occurrences concepts.length ws.length
    wordCount := ws.length }

end Extraction

/-- How long an input is, on a scale that ends at a hundred bytes. -/
def Text.lengthFactor (t : Text) : Single := (1 : Single).smaller (.ofNat t.length / 100)

/-- Whether an input asks or doubts. -/
def Text.signalsDoubt (t : Text) : Bool := t.contains "?" || t.containsWord "maybe"

end Reasoning
