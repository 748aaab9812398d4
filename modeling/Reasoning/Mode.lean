/-
  The modes of reasoning, one for each engine.
-/
import Reasoning.Text.Basic

namespace Reasoning

inductive Mode where
  | classical
  | modal
  | probabilistic
  | quantum
  | decision
  | crossDomain
  deriving Repr, DecidableEq

namespace Mode

/-- All modes, in the order in which they are listed. -/
def all : List Mode := [classical, modal, probabilistic, quantum, decision, crossDomain]

def name : Mode → Text
  | classical => "classical"
  | modal => "modal"
  | probabilistic => "probabilistic"
  | quantum => "quantum"
  | decision => "decision"
  | crossDomain => "cross_domain"

/-- Other names that a mode may be asked for by. -/
def aliases : Mode → List Text
  | probabilistic => ["bayesian"]
  | crossDomain => ["cross-domain", "across"]
  | _ => []

/-- The mode with a name or alias. -/
def ofName? (s : Text) : Option Mode := all.find? fun m => m.name == s || m.aliases.contains s

end Mode

/-- A value for each mode. -/
structure PerMode (α : Type) where
  classical : α
  modal : α
  probabilistic : α
  quantum : α
  decision : α
  crossDomain : α
  deriving DecidableEq

namespace PerMode

variable {α : Type}

/-- The same value for every mode. -/
def const (a : α) : PerMode α := ⟨a, a, a, a, a, a⟩

def get (p : PerMode α) : Mode → α
  | .classical => p.classical
  | .modal => p.modal
  | .probabilistic => p.probabilistic
  | .quantum => p.quantum
  | .decision => p.decision
  | .crossDomain => p.crossDomain

/-- Changes the value of one mode. -/
def modify (p : PerMode α) (mode : Mode) (g : α → α) : PerMode α :=
  match mode with
  | .classical => { p with classical := g p.classical }
  | .modal => { p with modal := g p.modal }
  | .probabilistic => { p with probabilistic := g p.probabilistic }
  | .quantum => { p with quantum := g p.quantum }
  | .decision => { p with decision := g p.decision }
  | .crossDomain => { p with crossDomain := g p.crossDomain }

theorem get_modify (p : PerMode α) (mode other : Mode) (g : α → α) :
    (p.modify mode g).get other = if other = mode then g (p.get mode) else p.get other := by
  cases mode <;> cases other <;> rfl

end PerMode

end Reasoning
