/-
  What a valid answer promises.

  Rules yield nothing that fails the check of sanity as long as nothing is rejected.  A premise
  that is an instance of an axiom is concluded without a check.

  * `conclusions_addInstances`, `Run.Sound.sane_iff`: where conclusions come from, and which of
    them pass the check;
  * `sanity_of_valid`: in a valid answer all conclusions pass the check exactly when the
    instances of axioms do.
-/
import Reasoning.Proofs.Audit
import Reasoning.Proofs.Dict
import Reasoning.Registry.Seed

namespace Reasoning.Classical

/-! ## Where conclusions come from -/

variable {gs : List Given} {g : Given} {c : Concluded}

/-- A premise is concluded when it is an instance of an axiom, unless it is there already. -/
theorem addInstance_cases (c : Concluded) (g : Given) :
    (c.addInstance g = c ∧ (g.instanceOf.isSome →
      ∃ s ∈ c.conclusions, s.canonical = g.proposition.text.canonical)) ∨
    (g.instanceOf.isSome ∧
      (c.addInstance g).conclusions = c.conclusions ++ [g.proposition.text]) := by
  unfold Concluded.addInstance
  cases hg : g.instanceOf with
  | none => exact .inl ⟨rfl, fun h => by cases h⟩
  | some a =>
    dsimp only
    split
    · rename_i h
      obtain ⟨s, hs, he⟩ := List.any_eq_true.1 h
      exact .inl ⟨rfl, fun _ => ⟨s, hs, eq_of_beq he⟩⟩
    · exact .inr ⟨rfl, rfl⟩

/-- The premises that are instances of axioms are concluded, beside what is there already. -/
theorem conclusions_addInstances (c : Concluded) (gs : List Given) :
    (∀ s ∈ c.conclusions, s ∈ (gs.foldl Concluded.addInstance c).conclusions) ∧
    (∀ s ∈ (gs.foldl Concluded.addInstance c).conclusions, s ∈ c.conclusions ∨
      ∃ g ∈ gs, g.instanceOf.isSome ∧ s = g.proposition.text) ∧
    ∀ g ∈ gs, g.instanceOf.isSome → ∃ s ∈ (gs.foldl Concluded.addInstance c).conclusions,
      s.canonical = g.proposition.text.canonical := by
  induction gs using List.reverseRecOn with
  | nil => exact ⟨fun s hs => hs, fun s hs => .inl hs, by simp⟩
  | append_singleton gs g ih =>
    rw [List.foldl_concat]
    obtain ⟨hkeep, hfrom, hall⟩ := ih
    rcases addInstance_cases (gs.foldl Concluded.addInstance c) g with ⟨he, hg⟩ | ⟨hg, he⟩
    · rw [he]
      refine ⟨hkeep, fun s hs => ?_, fun g' hg' hi => ?_⟩
      · refine (hfrom s hs).imp_right fun ⟨g', hg', hs'⟩ => ?_
        exact ⟨g', List.mem_append_left _ hg', hs'⟩
      · rcases List.mem_append.1 hg' with hg' | hg'
        · exact hall g' hg' hi
        · rw [List.mem_singleton.1 hg'] at hi ⊢
          exact hg hi
    · rw [he]
      refine ⟨fun s hs => List.mem_append_left _ (hkeep s hs), fun s hs => ?_,
        fun g' hg' hi => ?_⟩
      · rcases List.mem_append.1 hs with hs | hs
        · refine (hfrom s hs).imp_right fun ⟨g', hg', hs'⟩ => ?_
          exact ⟨g', List.mem_append_left _ hg', hs'⟩
        · exact .inr ⟨g, by simp, hg, List.mem_singleton.1 hs⟩
      · rcases List.mem_append.1 hg' with hg' | hg'
        · obtain ⟨s, hs, hse⟩ := hall g' hg' hi
          exact ⟨s, List.mem_append_left _ hs, hse⟩
        · rw [List.mem_singleton.1 hg']
          exact ⟨g.proposition.text, by simp, rfl⟩

/-- The conclusions of a run pass the check of sanity if and only if the premises do that are
    instances of axioms. -/
theorem Run.Sound.sane_iff {rules : List InferenceRule} {axioms : List Axiom}
    {ps : List Proposition} {run : Run} (h : run.Sound rules axioms (givens axioms ps)) :
    (∀ s ∈ (run.conclude (givens axioms ps)).conclusions, rejection? s ps = none) ↔
      ∀ p ∈ ps, (∃ a ∈ axioms, (Pattern.ofText a.statement).Accepts p.text.tokens []) →
        rejection? p.text ps = none := by
  obtain ⟨hkeep, hfrom, hall⟩ := conclusions_addInstances
    (run.deduced.foldl Concluded.addDeduced ⟨run.proof, []⟩) (givens axioms ps)
  rw [conclusions_addDeduced, List.nil_append] at hkeep hfrom
  have hps : ((givens axioms ps).map (·.proposition)).map (fun p => (p.id, p.text)) =
      ps.map fun p => (p.id, p.text) := by
    rw [List.map_map]
    refine map_givens (fun p seq => ?_) ps
    simp only [Function.comp, Given.ofProposition]
    split <;> rfl
  constructor
  · intro hsane p hp hacc
    have hmem : p.text ∈ (givens axioms ps).map (·.proposition.text) := by
      rw [texts_givens]
      exact List.mem_map_of_mem hp
    obtain ⟨g, hg, hgp⟩ := List.mem_map.1 hmem
    rw [← hgp, ← axiomInstance?_isSome_iff, ← instanceOf_givens hg] at hacc
    obtain ⟨s, hs, hse⟩ := hall g hg hacc
    rw [← hgp, ← rejection?_congr hse rfl]
    exact hsane s hs
  · intro hsane s hs
    rcases hfrom s hs with hs | ⟨g, hg, hi, rfl⟩
    · obtain ⟨d, hd, rfl⟩ := List.mem_map.1 hs
      rw [← h.accepted d hd]
      exact rejection?_congr rfl hps.symm
    · have hmem : g.proposition.text ∈ ps.map (·.text) := by
        rw [← texts_givens axioms]
        exact List.mem_map_of_mem hg
      obtain ⟨p, hp, hpg⟩ := List.mem_map.1 hmem
      rw [instanceOf_givens hg, axiomInstance?_isSome_iff, ← hpg] at hi
      rw [← hpg]
      exact hsane p hp hi

/-! ## Valid answers -/

theorem validity_answer (c : Config) (ex : Extraction) (gs : List Given) (run : Run) :
    (answer c ex gs run).details.boolField "validity" =
      (!(run.conclude gs).conclusions.isEmpty && run.rejected.isEmpty) := by
  unfold answer Json.boolField Json.ofMembers Json.member?
  dsimp only
  rw [Dict.get?_ofList]
  rfl

/-- **A valid answer concludes something**, and its conclusions pass the check of sanity exactly
    when the premises do that are instances of axioms: what rules yield always passes it. -/
theorem sanity_of_valid (r : Registry) (c : Config) (m : Metrics) (input : Text) (context : Json)
    (h : (reason r c m input context).1.details.boolField "validity") :
    let result := (reason r c m input context).1
    let ps := (Extraction.extract input context).premises
    result.conclusions ≠ [] ∧
    ((∀ s ∈ result.conclusions, rejection? s ps = none) ↔
      ∀ p ∈ ps, (∃ a ∈ r.axioms.items, (Pattern.ofText a.statement).Accepts p.text.tokens []) →
        rejection? p.text ps = none) := by
  revert h
  dsimp only
  unfold reason
  dsimp only
  split
  · intro h
    cases h
  · intro h
    dsimp only at h
    rw [validity_answer, Bool.and_eq_true, Bool.not_eq_true', List.isEmpty_eq_false_iff] at h
    exact ⟨h.1, (Run.sound r.inferenceRules.items r.axioms.items _).sane_iff⟩

/-- A conclusion by a rule, with nothing that an axiom makes certain. -/
theorem sanity_of_valid_modusPonens :
    let input := "If it rains, then the road is wet. It rains."
    (reason .seeded {} .empty input .null).1.details.boolField "validity" ∧
    ∀ s ∈ (reason .seeded {} .empty input .null).1.conclusions,
      rejection? s (Extraction.extract input .null).premises = none := by
  have hvalid : (reason .seeded {} .empty "If it rains, then the road is wet. It rains."
      .null).1.details.boolField "validity" := by decide +kernel
  refine ⟨hvalid, (sanity_of_valid _ _ _ _ _ hvalid).2.2 fun p hp hacc => ?_⟩
  rw [← axiomInstance?_isSome_iff] at hacc
  revert p
  decide +kernel

/-- An instance of an axiom is concluded although it calls itself contradictory. -/
theorem valid_contradiction :
    let input := "Contradiction or not contradiction."
    (reason .seeded {} .empty input .null).1.details.boolField "validity" ∧
    ¬ ∀ s ∈ (reason .seeded {} .empty input .null).1.conclusions,
      rejection? s (Extraction.extract input .null).premises = none := by
  decide +kernel

end Reasoning.Classical
