/-
  What a statement is accepted for.

  * `axiomInstance?_isSome_iff`: an axiom is found if and only if one accepts the words;
  * `rejection?_congr`: a statement is refused for its canonical form, whatever the premises
    are taken for.
-/
import Reasoning.Classical.Sanity
import Reasoning.Proofs.Pattern

namespace Reasoning

/-- The axiom that is found accepts the words. -/
theorem axiomInstance?_accepts {ws : List Text} {axioms : List Axiom} {a : Axiom}
    (h : axiomInstance? ws axioms = some a) :
    a ∈ axioms ∧ (Pattern.ofText a.statement).Accepts ws [] := by
  unfold axiomInstance? at h
  have hfit := List.find?_some h
  obtain ⟨b, hb⟩ := Option.isSome_iff_exists.1 hfit
  exact ⟨List.mem_of_find?_eq_some h, Pattern.accepts_of_fit hb⟩

theorem axiomInstance?_isSome_iff {ws : List Text} {axioms : List Axiom} :
    (axiomInstance? ws axioms).isSome ↔
      ∃ a ∈ axioms, (Pattern.ofText a.statement).Accepts ws [] := by
  have hfilled : Bindings.Filled [] := fun x vs hx => by simp at hx
  unfold axiomInstance?
  rw [List.find?_isSome]
  simp only [Pattern.fit_isSome_iff hfilled]

/-- Of a statement its words count, and of the premises what they are called and say. -/
theorem rejection?_congr {c c' : Text} {ps ps' : List Proposition}
    (hc : c.canonical = c'.canonical)
    (hps : ps.map (fun p => (p.id, p.text)) = ps'.map fun p => (p.id, p.text)) :
    rejection? c ps = rejection? c' ps' := by
  have hfind : ∀ ps : List Proposition,
      ((ps.find? fun p => areNegations c'.canonical p.text.canonical).map fun p =>
        Rejection.negatesPremise p.id) =
      ((ps.map fun p => (p.id, p.text)).find? fun e =>
        areNegations c'.canonical e.2.canonical).map fun e => .negatesPremise e.1 := by
    intro ps
    rw [List.find?_map, Option.map_map]
    rfl
  unfold rejection?
  dsimp only
  rw [hc, hfind ps, hfind ps', hps]

end Reasoning
