/-
  Answers of the probabilistic engine are whole symbols: besides numbers and fixed phrases only the
  premises and one distribution of the registry are written.
-/
import Reasoning.Probability.Reason
import Reasoning.Proofs.Encoding
import Reasoning.Proofs.Regex

namespace Reasoning

open Text

@[simp] theorem Distribution.Kind.valid_name (k : Distribution.Kind) : k.name.Valid := by
  cases k <;> exact valid_ofString _

namespace Probability

@[simp] theorem valid_format (x : Single) : (format x).Valid :=
  valid_of_ascii fun b hb => x.ascii_fixed 3 b (List.mem_of_mem_take hb)

@[simp] theorem valid_bucket (p : Single) : (bucket p).Valid := by
  unfold bucket
  split_ifs <;> exact valid_ofString _

@[simp] theorem valid_descriptor (c : Single) : (descriptor c).Valid := by
  unfold descriptor
  split_ifs <;> exact valid_ofString _

@[simp] theorem Source.valid_name (s : Source) : s.name.Valid := by
  cases s <;> exact valid_ofString _

@[simp] theorem valid_statement (p confidence : Single) : (statement p confidence).Valid := by
  simp [statement]

theorem mem_of_mostHits? {ws : List Text} {ds : List Distribution} {d : Distribution}
    (h : mostHits? ws ds = some d) : d ∈ ds := by
  revert h
  refine List.foldlRecOn ds _ (motive := fun best => best = some d → d ∈ ds)
    (fun h => nomatch h) fun best hbest e he h => ?_
  split at h
  · cases h
    exact he
  · exact hbest h

theorem mem_of_distributionFor? {input : Text} {ds : List Distribution} {d : Distribution}
    (h : distributionFor? input ds = some d) : d ∈ ds := by
  unfold distributionFor? at h
  rcases Regex.or_of_orElse h with h | h
  · exact mem_of_mostHits? h
  · rcases Regex.or_of_orElse h with h | h
    · exact List.mem_of_find?_eq_some h
    · exact List.mem_of_mem_head? h

theorem printable_describe {d : Distribution} (h : AllValid d.texts) : (describe d).Printable := by
  simp only [Distribution.texts, allValid_cons] at h
  exact Json.printable_ofMembers (by simp [h])

theorem printable_answer {r : Registry} (hr : r.Printable) (input : Text) {ps : List Proposition}
    (hp : ∀ p ∈ ps, AllValid p.texts) (e : Estimate) : (answer r input ps e).Printable := by
  unfold answer
  dsimp only
  have hd : ∀ d ∈ distributionFor? input r.distributions.items, AllValid d.texts := fun d hd =>
    hr.distributions d (mem_of_distributionFor? hd)
  generalize distributionFor? input r.distributions.items = d at hd ⊢
  generalize Score.clamp _ = confidence
  refine ⟨by simp, ?_, ?_, ?_, ?_, ?_, ?_⟩
  · unfold proof
    dsimp only
    have hgiven := Ledger.printable_premises hp
    refine Ledger.Printable.push ?_ (valid_statement ..) (valid_ofString _)
    split
    · exact (hgiven.push (by simp) (by simp)).push (by simp [Prior.calculation]) (valid_ofString _)
    · exact hgiven.push (by simp) (by simp)
  · rw [allValid_cons]
    exact ⟨by simp, by split <;> simp⟩
  · simp only [uncertainty, allValid_append]
    refine ⟨⟨⟨?_, ?_⟩, ?_⟩, ?_⟩ <;> split <;> simp
  · simp only [uncertainty, allValid_append]
    refine ⟨⟨?_, ?_⟩, ?_⟩ <;> split <;> simp
  · change AllValid (evidence e)
    unfold evidence
    split <;> simp
  · refine Json.printable_ofMembers ?_
    rw [List.forall_mem_append, List.forall_mem_append, List.forall_mem_append]
    refine ⟨⟨⟨?_, ?_⟩, by simp⟩, ?_⟩
    · split <;> simp
    · cases e.posterior? <;> simp
    · cases d with
      | none => simp
      | some d => simp [printable_describe (hd d rfl)]

theorem printable_reason {r : Registry} (hr : r.Printable) (m : Metrics)
    {input : Text} {context : Json} (hi : input.Valid) (hc : context.Printable) :
    (reason r m input context).1.Printable := by
  unfold reason
  dsimp only
  split
  · exact Result.printable_neutral (valid_ofString _) (Json.printable_ofMembers (by simp))
      allValid_nil
  · exact printable_answer hr input (Extraction.allValid_premises hi hc) _

end Probability

end Reasoning
