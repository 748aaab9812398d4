/-
  Patterns of statements.

  A template is a sequence of words and variables; a variable is a single capital letter
  and stands for one or more words.  A pattern is a choice of templates.  Words are compared
  without regard to case, and what a variable stands for keeps the case it is written in.

  * `Template.fit` fits a template to the words of a statement under given bindings, each
    new variable with as few words as possible;
  * `Pattern.fit` takes the first template of a pattern that fits;
  * `instantiate` fills a template with what its variables stand for.

  A variable never stands for a word that carries the structure of a statement, and a
  template that is nothing but a new variable fits statements without connectives only.
-/
import Reasoning.Dict
import Reasoning.Text.Words

namespace Reasoning

/-- What variables stand for. -/
abbrev Bindings := Dict (List Text)

/-! ## Words with a part in the structure -/

/-- Words that no variable stands for, in small letters. -/
def isReserved (w : Text) : Bool := (Text.ofStrings ["if", "then", "implies", "iff"]).contains w

/-- Words that make a statement compound, in small letters. -/
def isConnectiveWord (w : Text) : Bool :=
  isReserved w ||
    (Text.ofStrings ["and", "or", "not", "neither", "nor", "both", "either"]).contains w

/-- Words without a connective among them, and at least one. -/
def isAtomic (ws : List Text) : Bool :=
  !ws.isEmpty && ws.all fun w => !isConnectiveWord (Text.lower w)

/-- A single capital letter. -/
def isVariable (w : Text) : Bool :=
  match w with
  | [b] => Byte.isUpper b
  | _ => false

/-! ## Templates -/

/-- A part of a template. -/
inductive Slot where
  | word (w : Text)
  | var (name : Text)
  deriving Repr, DecidableEq

def Slot.ofToken (w : Text) : Slot := if isVariable w then .var w else .word w

/-- A sequence of words and variables. -/
abbrev Template := List Slot

namespace Template

def ofText (t : Text) : Template := t.tokens.map Slot.ofToken

/-- Gives a new variable one word after the other, the first of which is to be taken next,
    until `k` succeeds with the words taken and those left. -/
def capture {β : Type} (k : List Text → List Text → Option β) (taken : List Text) :
    List Text → Option β
  | [] => none
  | w :: ws =>
    if isReserved (Text.lower w) then none
    else k (taken ++ [w]) ws <|> capture k (taken ++ [w]) ws

/-- Fits a template to all of some words, and gives the bindings with the new variables. -/
def fit : Template → List Text → Bindings → Option Bindings
  | [], [], b => some b
  | [], _ :: _, _ => none
  | _ :: _, [], _ => none
  | .word w :: slots, v :: ws, b => if Text.lower w == Text.lower v then fit slots ws b else none
  | .var x :: slots, v :: ws, b =>
    match b.get? x with
    | some bound =>
      if Text.sameWords ((v :: ws).take bound.length) bound then
        fit slots ((v :: ws).drop bound.length) b
      else none
    | none => capture (fun taken rest => fit slots rest (b.insert x taken)) [] (v :: ws)

/-- The variable that the template consists of, if it is nothing else. -/
def bare? : Template → Option Text
  | [.var x] => some x
  | _ => none

end Template

/-! ## Patterns -/

/-- The templates of which one has to fit. -/
structure Pattern where
  templates : List Template
  deriving Repr, DecidableEq

namespace Pattern

/-- Templates with `|` between them; empty ones do not count. -/
def ofText (t : Text) : Pattern :=
  ⟨((t.splitWhere (· == '|'.toUInt8)).map Template.ofText).filter fun s => !s.isEmpty⟩

def isEmpty (p : Pattern) : Bool := p.templates.isEmpty

/-- The pattern is nothing but one variable. -/
def isBare (p : Pattern) : Bool :=
  match p.templates with
  | [t] => t.bare?.isSome
  | _ => false

/-- Whether a template may be tried: a new variable on its own wants an atomic statement. -/
def admits (t : Template) (ws : List Text) (b : Bindings) : Bool :=
  match t.bare? with
  | some x => b.contains x || isAtomic ws
  | none => true

/-- The bindings of the first template that fits. -/
def fit (p : Pattern) (ws : List Text) (b : Bindings) : Option Bindings :=
  p.templates.findSome? fun t => if admits t ws b then t.fit ws b else none

end Pattern

/-! ## Filling a template -/

/-- The words that a slot stands for; an unbound variable is the fault. -/
def Slot.fill (b : Bindings) : Slot → Except Text (List Text)
  | .word w => .ok [w]
  | .var x => match b.get? x with
    | some ws => .ok ws
    | none => .error x

/-- The statement of a template under some bindings, or the first variable without one. -/
def instantiate (t : Text) (b : Bindings) : Except Text Text :=
  ((Template.ofText t).mapM (Slot.fill b)).map fun ws => Text.join " " ws.flatten

end Reasoning
