/-
  Logical connectives in a text.

  * `Connective.normalize` writes logical symbols as words;
  * `Connective.scan` counts the connectives among the words of a text.
-/
import Reasoning.Text.Search
import Reasoning.Text.Words

namespace Reasoning

inductive Connective where
  | and
  | or
  | not
  | ifThen
  | iff
  | all
  | some
  deriving Repr, DecidableEq

namespace Connective

/-- All connectives, in the order in which they are listed. -/
def list : List Connective := [and, or, not, ifThen, iff, all, some]

def name : Connective → Text
  | and => "and"
  | or => "or"
  | not => "not"
  | ifThen => "if-then"
  | iff => "iff"
  | all => "all"
  | some => "some"

/-- Logical symbols with their words. -/
def symbols : List (Text × Text) :=
  [("¬", " not "), ("∧", " and "), ("∨", " or "), ("↔", " iff "), ("→", " implies "),
   ("∀", " all "), ("∃", " some ")]

/-- Writes the logical symbols of a text as words. -/
def normalize (t : Text) : Text :=
  symbols.foldl (fun t s => t.replaceAll s.1 s.2) t

/-- How often a connective stands among the words.  Each `implies` is a conditional; an
    `if` and a `then` somewhere make at least one. -/
def occurrences (ws : List Text) : Connective → Nat
  | and => ws.count (Text.ofString "and")
  | or => ws.count (Text.ofString "or")
  | not => ws.countP fun w => (Text.ofStrings ["not", "no", "neither", "nor"]).contains w
  | ifThen =>
    let n := ws.count (Text.ofString "implies")
    if ws.contains "if" && Text.hasAnyWord ws ["then", "implies"] then max n 1 else n
  | iff => ws.count (Text.ofString "iff")
  | all => ws.countP fun w => (Text.ofStrings ["all", "every", "each"]).contains w
  | some => ws.countP fun w => (Text.ofStrings ["some", "exists"]).contains w

/-- The connectives among some words, and how often they occur together. -/
structure Scan where
  kinds : List Connective
  occurrences : Nat
  deriving Repr, DecidableEq

def scan (ws : List Text) : Scan where
  kinds := list.filter fun c => 0 < occurrences ws c
  occurrences := (list.map (occurrences ws)).foldl (· + ·) 0

end Connective

end Reasoning
