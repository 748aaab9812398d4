/-
  How concepts are paired.

  * `isScore_candidate`: how alike a concept and its candidate are is a score;
  * `Makes`, `makes_of_mem_pairs`: a pair is made of the candidate that its concept has when the
    concepts before it are paired;
  * `strongest?_eq_some`: the strongest entry of a table, and the entries on both sides of it.
-/
import Mathlib.Data.List.Induction
import Reasoning.Domain.Transfer
import Reasoning.Proofs.Order

namespace Reasoning

open Score

theorem isScore_similarity (a b : List Text) : IsScore (similarity a b) := by
  unfold similarity
  split
  · exact isScore_zero
  · exact isScore_clamp _

namespace TransferPlan

variable {plan : TransferPlan} {p : Pairing} {concept : Text} {concepts : List Text}
  {pair : ConceptPair}

/-! ## Candidates -/

theorem isScore_foldl_better {profile : List Text} {cs : Dict Concept} {best : Candidate}
    (h : IsScore best.similarity) : IsScore (cs.foldl (better profile) best).similarity := by
  induction cs generalizing best with
  | nil => exact h
  | cons c cs ih =>
    apply ih
    unfold better
    dsimp only
    split
    · exact isScore_similarity ..
    · exact h

theorem isScore_candidate (h : ∀ m ∈ plan.mappings, IsScore m.similarity) (p : Pairing)
    (concept : Text) : IsScore (plan.candidate p concept).similarity := by
  unfold candidate
  cases hm : plan.established? p concept with
  | some m =>
    have hscore := h m (List.mem_of_find?_eq_some hm)
    dsimp only
    split
    · exact isScore_foldl_better hscore
    · exact hscore
  | none => exact isScore_foldl_better isScore_zero

/-! ## Pairs -/

/-- A concept is paired with its candidate or stays unpaired. -/
theorem step_cases (plan : TransferPlan) (p : Pairing) (concept : Text) :
    (∃ target s, plan.candidate p concept = ⟨target, s⟩ ∧ target ≠ [] ∧ plan.threshold < s ∧
      plan.step p concept = { p with pairs := p.pairs ++ [⟨concept, target, s⟩] }) ∨
    plan.step p concept = { p with unpaired := p.unpaired ++ [concept] } := by
  unfold step
  dsimp only
  split
  · rename_i h
    rw [Bool.and_eq_true, Bool.not_eq_true', List.isEmpty_eq_false_iff, decide_eq_true_eq] at h
    exact .inl ⟨_, _, rfl, h.1, h.2, rfl⟩
  · exact .inr rfl

theorem pairing_concat (plan : TransferPlan) (concepts : List Text) (concept : Text) :
    plan.pairing (concepts ++ [concept]) = plan.step (plan.pairing concepts) concept :=
  List.foldl_append

/-- The pair is made at the place of its concept among the concepts. -/
def Makes (plan : TransferPlan) (concepts : List Text) (pair : ConceptPair) : Prop :=
  ∃ before after, concepts = before ++ pair.concept :: after ∧
    plan.candidate (plan.pairing before) pair.concept = ⟨pair.target, pair.similarity⟩ ∧
    pair.target ≠ [] ∧ plan.threshold < pair.similarity

theorem Makes.concat (h : plan.Makes concepts pair) (concept : Text) :
    plan.Makes (concepts ++ [concept]) pair := by
  obtain ⟨before, after, rfl, hmade⟩ := h
  exact ⟨before, after ++ [concept], List.append_assoc .., hmade⟩

theorem makes_of_mem_pairs (h : pair ∈ (plan.pairing concepts).pairs) :
    plan.Makes concepts pair := by
  induction concepts using List.reverseRecOn with
  | nil => cases h
  | append_singleton concepts concept ih =>
    rw [pairing_concat] at h
    rcases plan.step_cases (plan.pairing concepts) concept with
      ⟨target, s, hcand, htarget, hs, hstep⟩ | hstep <;> rw [hstep] at h
    · rcases List.mem_append.1 h with h | h
      · exact (ih h).concat concept
      · rw [List.mem_singleton.1 h]
        exact ⟨concepts, [], rfl, hcand, htarget, hs⟩
    · exact (ih h).concat concept

theorem isScore_of_mem_pairs (h : ∀ m ∈ plan.mappings, IsScore m.similarity)
    (hp : pair ∈ (plan.pairing concepts).pairs) : IsScore pair.similarity := by
  obtain ⟨before, after, -, hcand, -⟩ := makes_of_mem_pairs hp
  have := isScore_candidate h (plan.pairing before) pair.concept
  rwa [hcand] at this

end TransferPlan

/-! ## The strongest entry -/

namespace Transfer

theorem strongest?_eq_none {d : Dict Single} : strongest? d = none ↔ d = [] := by
  cases d <;> simp [strongest?]

theorem strongest?_concat (d : Dict Single) (e : Text × Single) :
    strongest? (d ++ [e]) =
      some (match strongest? d with
        | none => e
        | some best => if best.2 < e.2 then e else best) := by
  cases d with
  | nil => rfl
  | cons f d => exact congrArg some List.foldl_append

/-- What stands before the strongest entry is smaller, and what comes after it not larger. -/
theorem strongest?_eq_some {d : Dict Single} {e : Text × Single} (h : ∀ e ∈ d, IsScore e.2)
    (he : strongest? d = some e) :
    ∃ before after, d = before ++ e :: after ∧ (∀ f ∈ before, f.2 < e.2) ∧
      ∀ f ∈ after, f.2 ≤ e.2 := by
  induction d using List.reverseRecOn generalizing e with
  | nil => cases he
  | append_singleton d g ih =>
    rw [strongest?_concat, Option.some.injEq] at he
    have hg : IsScore g.2 := h g (List.mem_append_right _ (List.mem_singleton_self g))
    cases hd : strongest? d with
    | none =>
      rw [hd] at he
      rw [strongest?_eq_none.1 hd, ← he]
      exact ⟨[], [], rfl, List.forall_mem_nil _, List.forall_mem_nil _⟩
    | some best =>
      rw [hd] at he
      have hscores : ∀ e ∈ d, IsScore e.2 := fun e he => h e (List.mem_append_left _ he)
      obtain ⟨before, after, hsplit, hbefore, hafter⟩ := ih hscores hd
      have hbest : IsScore best.2 := hscores best (by simp [hsplit])
      dsimp only at he
      split at he <;> subst he
      · rename_i hlt
        refine ⟨d, [], rfl, fun f hf => ?_, List.forall_mem_nil _⟩
        suffices hle : f.2 ≤ best.2 from Binary.lt_of_le_of_lt hle hlt
        rw [hsplit, List.mem_append, List.mem_cons] at hf
        rcases hf with hf | rfl | hf
        · exact Binary.le_of_lt (hbefore f hf)
        · exact Binary.le_refl hbest.isNaN
        · exact hafter f hf
      · rename_i hge
        refine ⟨before, after ++ [g], ?_, hbefore, fun f hf => ?_⟩
        · rw [hsplit, List.append_assoc, List.cons_append]
        · rcases List.mem_append.1 hf with hf | hf
          · exact hafter f hf
          · rw [List.mem_singleton.1 hf]
            exact Binary.le_of_not_lt hbest.isNaN hg.isNaN hge

end Transfer

end Reasoning
