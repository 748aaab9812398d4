/-
  Answers of the classical engine are whole symbols.

  * `InferenceRule.valid_conclusion`: a rule concludes words of its consequent and of the premises;
  * `Classical.Run.Printable`: all texts of a run are valid, kept by each rule
    (`Run.Printable.apply`);
  * `Classical.printable_reason`: so is the answer.
-/
import Reasoning.Classical.Reason
import Reasoning.Proofs.Encoding
import Reasoning.Proofs.Inference

namespace Reasoning

open Text

namespace InferenceRule

variable {r : InferenceRule} {wss : List (List Text)}

@[simp] theorem Kind.valid_name (k : Kind) : k.name.Valid := by
  cases k <;> exact valid_ofString _

theorem valid_of_instantiate {t c : Text} {b : Bindings}
    (hb : ∀ x vs, b.get? x = some vs → AllValid vs) (h : instantiate t b = .ok c) : c.Valid := by
  rw [eq_join_of_instantiate h]
  refine AllValid.join (fun w hw => ?_) (valid_ofString _)
  obtain ⟨token, htoken, hw⟩ := List.mem_flatMap.1 hw
  exact b.forall_wordsOf hb (allValid_tokens t token htoken) w hw

/-- What a rule concludes is made of words. -/
theorem valid_conclusion {ms : List RuleMatch} (hwss : ∀ ws ∈ wss, AllValid ws)
    (h : r.apply wss = .ok ms) {m : RuleMatch} (hm : m ∈ ms) : m.conclusion.Valid := by
  obtain ⟨s, hs, hsm⟩ := exists_of_mem_apply h hm
  obtain ⟨is, -, -, -, -, -, ht⟩ := mem_ways_iff.1 hs
  unfold matchOf at hsm
  split at hsm
  · rename_i c hc
    cases hsm
    exact valid_of_instantiate (ht.forall_words hwss fun x vs hx => nomatch hx) hc
  · cases hsm

end InferenceRule

theorem valid_rejection {c : Text} {ps : List Proposition} (hp : ∀ p ∈ ps, p.id.Valid)
    {reason : Rejection} (h : rejection? c ps = some reason) : reason.message.Valid := by
  unfold rejection? at h
  dsimp only at h
  split at h
  · cases h
    exact valid_ofString _
  split at h
  · cases h
    exact valid_ofString _
  split at h
  · cases h
    exact valid_ofString _
  · obtain ⟨p, hfound, rfl⟩ := Option.map_eq_some_iff.1 h
    simp [Rejection.message, hp p (List.mem_of_find?_eq_some hfound)]

namespace Classical

/-- The texts of a premise and of the axiom that it is an instance of are valid. -/
structure Given.Printable (g : Given) : Prop where
  proposition : AllValid g.proposition.texts
  instanceOf : ∀ a ∈ g.instanceOf, AllValid a.texts
  words : AllValid g.words

namespace Given

variable {g : Given}

theorem Printable.text (h : g.Printable) : g.proposition.text.Valid :=
  h.proposition _ (by simp [Proposition.texts])

theorem Printable.id (h : g.Printable) : g.proposition.id.Valid :=
  h.proposition _ (by simp [Proposition.texts])

theorem Printable.why (h : g.Printable) : g.why.Valid := by
  unfold Given.why
  cases ha : g.instanceOf with
  | some a =>
    exact (valid_ofString _).append (h.instanceOf a ha _ (by simp [Axiom.texts]))
  | none =>
    have := h.proposition g.proposition.source (by simp [Proposition.texts])
    simp [this]

end Given

theorem printable_of_mem_givens {axioms : List Axiom} {ps : List Proposition}
    (ha : ∀ a ∈ axioms, AllValid a.texts) (hp : ∀ p ∈ ps, AllValid p.texts) :
    ∀ g ∈ givens axioms ps, g.Printable := by
  intro g hg
  obtain ⟨⟨p, i⟩, hpi, rfl⟩ := List.mem_map.1 hg
  have hp : AllValid p.texts := hp p ((List.mem_zipIdx' hpi).2 ▸ List.getElem_mem _)
  refine ⟨?_, fun a hfound => ?_, allValid_tokens _⟩
  · unfold Given.ofProposition
    dsimp only
    split <;> exact hp
  · exact ha a (List.mem_of_find?_eq_some hfound)

/-- All texts of the run are valid. -/
structure Run.Printable (run : Run) : Prop where
  proof : run.proof.Printable
  evidence : AllValid run.evidence
  applied : AllValid run.applied
  rejected : ∀ x ∈ run.rejected, x.toJson.Printable
  deduced : ∀ d ∈ run.deduced, d.conclusion.Valid ∧ d.ruleName.Valid
  alternatives : AllValid run.alternatives

namespace Run

variable {gs : List Given} {run : Run} {rule : InferenceRule}

theorem printable_start (hg : ∀ g ∈ gs, g.Printable) : (Run.start gs).Printable where
  proof := Ledger.printable_empty.foldl fun l g hgs hl => hl.push (hg g hgs).text (hg g hgs).why
  evidence := by
    intro t ht
    obtain ⟨g, hgs, ht⟩ := List.mem_filterMap.1 ht
    obtain ⟨a, ha, rfl⟩ := Option.map_eq_some_iff.1 ht
    exact (valid_ofString _).append ((hg g hgs).instanceOf a ha _ (by simp [Axiom.texts]))
  applied := allValid_nil
  rejected := List.forall_mem_nil _
  deduced := List.forall_mem_nil _
  alternatives := allValid_nil

theorem Printable.take (h : run.Printable) (hg : ∀ g ∈ gs, g.Printable)
    (hr : AllValid rule.texts) {m : RuleMatch} (hm : m.conclusion.Valid) :
    (run.take gs rule m).Printable := by
  simp only [InferenceRule.texts, allValid_cons] at hr
  obtain ⟨hid, hname, hevidence⟩ := hr
  have hwhy := hevidence.join (valid_ofString ", ")
  unfold Run.take
  split
  · rename_i reason hreason
    have hreason : reason.message.Valid :=
      valid_rejection (List.forall_mem_map.2 fun g hgs => (hg g hgs).id) hreason
    have hrejected : ∀ x ∈ run.rejected ++ [⟨rule.id, m.conclusion, reason⟩],
        x.toJson.Printable := by
      rw [List.forall_mem_append, List.forall_mem_singleton]
      exact ⟨h.rejected, by simp [Rejected.toJson, hid, hm, hreason]⟩
    exact { h with rejected := hrejected }
  · dsimp only
    generalize support _ _ = confidence
    have hproof : (run.proof.push .inference m.conclusion rule.name confidence
        ((taken gs m).map (·.seq))).Printable := h.proof.push hm hname
    have happlied : AllValid (run.applied ++ [rule.id]) := by simp [h.applied, hid]
    have hevidence : AllValid (run.evidence ++
        [rule.name ++ Text.ofString ": " ++ Text.join ", " rule.evidence]) := by
      simp [h.evidence, hname, hwhy]
    split
    · split
      · exact ⟨hproof, hevidence, happlied, h.rejected, h.deduced, h.alternatives⟩
      · refine ⟨hproof, hevidence, happlied, h.rejected, ?_, h.alternatives⟩
        rw [List.forall_mem_append, List.forall_mem_singleton]
        exact ⟨h.deduced, hm, hname⟩
    · exact ⟨hproof, hevidence, happlied, h.rejected, h.deduced, by simp [h.alternatives, hm]⟩

theorem Printable.apply (h : run.Printable) (hg : ∀ g ∈ gs, g.Printable)
    (hr : AllValid rule.texts) : (run.apply gs rule).Printable := by
  unfold Run.apply
  split
  · rename_i ms hms
    have hwss : ∀ ws ∈ gs.map (·.words), AllValid ws :=
      List.forall_mem_map.2 fun g hgs => (hg g hgs).words
    exact List.foldlRecOn ms _ h fun run hrun m hm =>
      hrun.take hg hr (InferenceRule.valid_conclusion hwss hms hm)
  · exact { h with }

end Run

/-- All texts of the proof and its conclusions are valid. -/
structure Concluded.Printable (c : Concluded) : Prop where
  proof : c.proof.Printable
  conclusions : AllValid c.conclusions

theorem Run.Printable.conclude {run : Run} {gs : List Given} (h : run.Printable)
    (hg : ∀ g ∈ gs, g.Printable) : (run.conclude gs).Printable := by
  unfold Run.conclude
  have hdeduced : (run.deduced.foldl Concluded.addDeduced ⟨run.proof, []⟩).Printable := by
    refine List.foldlRecOn run.deduced _ ⟨h.proof, allValid_nil⟩ fun c hc d hd => ?_
    obtain ⟨hconclusion, hname⟩ := h.deduced d hd
    exact ⟨hc.proof.push hconclusion (by simp [hname]), by
      simp [Concluded.addDeduced, hc.conclusions, hconclusion]⟩
  refine List.foldlRecOn gs _ hdeduced fun c hc g hgs => ?_
  unfold Concluded.addInstance
  split
  · exact hc
  · rename_i a ha
    have hname : a.name.Valid := (hg g hgs).instanceOf a ha _ (by simp [Axiom.texts])
    dsimp only
    split
    · exact hc
    · exact ⟨hc.proof.push (hg g hgs).text (by simp [hname]), by
        simp [hc.conclusions, (hg g hgs).text]⟩

theorem printable_answer (c : Config) (ex : Extraction) {gs : List Given} {run : Run}
    (hg : ∀ g ∈ gs, g.Printable) (h : run.Printable) : (answer c ex gs run).Printable := by
  have hdone := h.conclude hg
  have haxioms : AllValid (gs.filterMap fun g => g.instanceOf.map (·.id)) := by
    intro t ht
    obtain ⟨g, hgs, ht⟩ := List.mem_filterMap.1 ht
    obtain ⟨a, ha, rfl⟩ := Option.map_eq_some_iff.1 ht
    exact (hg g hgs).instanceOf a ha _ (by simp [Axiom.texts])
  have hpremises : (Json.array ((gs.map (·.proposition)).map Proposition.toJson)).Printable := by
    refine Json.printable_array_map.2 (List.forall_mem_map.2 fun g hgs => ?_)
    have := (hg g hgs).proposition
    simp only [Proposition.texts, allValid_cons] at this
    simp [Proposition.toJson, this]
  have hconnectives : AllValid (ex.connectives.map Connective.name) :=
    allValid_map.2 fun c _ => c.valid_name
  refine ⟨hdone.conclusions, hdone.proof, h.alternatives, ?_, ?_, h.evidence, ?_⟩
  · simp only [answer, uncertainty, allValid_append]
    refine ⟨⟨⟨?_, ?_⟩, ?_⟩, ?_⟩ <;> split <;> simp
  · simp only [answer, uncertainty, allValid_append]
    constructor <;> split <;> simp
  · refine Json.printable_ofMembers ?_
    simpa [h.applied, haxioms, hconnectives, Json.printable_array_map.2 h.rejected] using hpremises

theorem printable_reason {r : Registry} (hr : r.Printable) (c : Config) (m : Metrics)
    {input : Text} {context : Json} (hi : input.Valid) (hc : context.Printable) :
    (reason r c m input context).1.Printable := by
  unfold reason
  dsimp only
  split
  · exact Result.printable_neutral (valid_ofString _)
      (Json.printable_ofMembers (by simp)) allValid_nil
  · have hg := printable_of_mem_givens hr.axioms (Extraction.allValid_premises hi hc)
    exact printable_answer _ _ hg (List.foldlRecOn r.inferenceRules.items _
      (Run.printable_start hg) fun run hrun rule hrule =>
        hrun.apply hg (hr.inferenceRules rule hrule))

end Classical

end Reasoning
