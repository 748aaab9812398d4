/-
  Every score that an engine reports is a score.

  * `Binary.Unsigned`: the numbers that a sum of shares can be, which a bound from above makes
    scores;
  * `Result.Rated`: the confidence and the uncertainty of a result are scores, for all engines
    `Engine.rated_evaluate`;
  * `Answer.scores`: the scores that an answer reports;
  * `Engine.scores_bounded`: all of them, and the certainties of all premises, are scores.
-/
import Reasoning.Proofs.Consistency
import Reasoning.Proofs.Grounding
import Reasoning.Proofs.Transfer

namespace Reasoning

open Score

/-! ## Numbers without a sign -/

namespace Binary

variable {f : Format} {x y c : Binary f}

/-- A number that has no sign, which may be infinite. -/
structure Unsigned (x : Binary f) : Prop where
  isNaN : x.isNaN = false
  isNegative : x.isNegative = false

instance (x : Binary f) : Decidable x.Unsigned :=
  decidable_of_iff (x.isNaN = false ∧ x.isNegative = false)
    ⟨fun h => ⟨h.1, h.2⟩, fun h => ⟨h.1, h.2⟩⟩

/-- A finite number greater than zero. -/
def IsPositive : Binary f → Bool
  | finite false (_ + 1) _ => true
  | _ => false

theorem unsigned_ofRatio (num den : Nat) : (ofRatio (f := f) false num den).Unsigned := by
  unfold ofRatio
  dsimp only
  split <;> exact ⟨rfl, rfl⟩

theorem unsigned_ofNat (n : Nat) : (ofNat (f := f) n).Unsigned := unsigned_ofRatio ..

theorem Unsigned.add (hx : x.Unsigned) (hy : y.Unsigned) : (x + y).Unsigned := by
  obtain ⟨hx, hxs⟩ := hx
  obtain ⟨hy, hys⟩ := hy
  cases x with
  | nan => cases hx
  | infinite a =>
    cases hxs
    cases y with
    | nan => cases hy
    | infinite b =>
      cases hys
      exact ⟨rfl, rfl⟩
    | finite b n hn => exact ⟨rfl, rfl⟩
  | finite a m hm =>
    cases hxs
    cases y with
    | nan => cases hy
    | infinite b =>
      cases hys
      exact ⟨rfl, rfl⟩
    | finite b n hn =>
      cases hys
      show Unsigned (if signed false m + signed false n = 0 then zero (false && false) else
        ofRatio (signed false m + signed false n < 0) (signed false m + signed false n).natAbs 1)
      have hsum : ¬ signed false m + signed false n < 0 := by
        simp only [signed, Bool.false_eq_true, if_false]
        omega
      rw [decide_eq_false hsum]
      split
      · exact ⟨rfl, rfl⟩
      · exact unsigned_ofRatio ..

/-- A finite part of a number; no part at all would make `nan` of an infinite number. -/
theorem Unsigned.mul_left (hx : x.Unsigned) (hc : c.IsPositive = true) : (c * x).Unsigned := by
  obtain ⟨hx, hxs⟩ := hx
  unfold IsPositive at hc
  split at hc
  · rename_i m hm
    cases x with
    | nan => cases hx
    | infinite b =>
      cases hxs
      exact ⟨rfl, rfl⟩
    | finite b n hn =>
      cases hxs
      exact unsigned_ofRatio ..
  · cases hc

end Binary

namespace Score

variable {x bound : Single}

theorem nonneg_of_unsigned (hx : x.Unsigned) : 0 ≤ x := by
  obtain ⟨hx, hxs⟩ := hx
  refine Binary.le_iff.2 ⟨isScore_zero.isNaN, hx, ?_⟩
  rw [rank_zero]
  cases x with
  | nan => cases hx
  | infinite a =>
    cases hxs
    exact Int.natCast_nonneg _
  | finite a n hn =>
    cases hxs
    exact Int.natCast_nonneg _

theorem isScore_smaller (hbound : IsScore bound) (hx : x.Unsigned) :
    IsScore (bound.smaller x) := by
  unfold Binary.smaller
  split
  · rename_i hlt
    obtain ⟨-, -, hle⟩ := Binary.le_iff.1 hbound.2
    obtain ⟨hn, -, hlt⟩ := Binary.lt_iff.1 hlt
    exact ⟨nonneg_of_unsigned hx,
      Binary.le_iff.2 ⟨hn, isScore_one.isNaN, Int.le_trans (Int.le_of_lt hlt) hle⟩⟩
  · exact hbound

theorem isScore_neutral : IsScore neutral := by decide +kernel

end Score

/-! ## Premises -/

namespace Proposition

theorem isScore_ofSentence (index : Nat) (text source : Text) (terminator : Option UInt8) :
    IsScore (ofSentence index text source terminator).certainty := isScore_clamp _

theorem isScore_ofContextValue? {index : Nat} {entry : Json} {p : Proposition}
    (h : ofContextValue? index entry = some p) : IsScore p.certainty := by
  simp only [ofContextValue?, bind, Option.bind_eq_some_iff] at h
  obtain ⟨text, -, h⟩ := h
  split at h
  · cases h
  · split at h <;> cases h
    · exact isScore_ofSentence ..
    · -- The certainty that the entry states is clamped, and else it is that of the sentence.
      dsimp only
      cases (entry.member? "certainty").bind Json.number? with
      | none => exact isScore_ofSentence ..
      | some x => exact isScore_clamp x

end Proposition

theorem Extraction.isScore_certainty (input : Text) (context : Json) :
    ∀ p ∈ (extract input context).premises, IsScore p.certainty := by
  unfold extract Proposition.addEntries
  dsimp only
  refine List.foldlRecOn _ _
    (motive := fun ps : List Proposition => ∀ p ∈ ps, IsScore p.certainty) ?_ ?_
  · intro p hp
    obtain ⟨s, -, rfl⟩ := List.mem_map.1 hp
    exact Proposition.isScore_ofSentence ..
  · intro ps hps entry _ p hp
    rcases List.mem_append.1 hp with hp | hp
    · exact hps p hp
    · exact Proposition.isScore_ofContextValue? (Option.mem_toList.1 hp)

/-! ## Results -/

/-- The confidence of the result and its uncertainty are scores. -/
structure Result.Rated (r : Result) : Prop where
  confidence : IsScore r.confidence
  level : IsScore r.uncertainty.level

theorem Result.rated_neutral (mode : Mode) (why : Text) (details : Json)
    (mitigations : List Text) : (Result.neutral mode why details mitigations).Rated :=
  ⟨isScore_neutral, isScore_neutral⟩

namespace Classical

theorem rated_answer (c : Config) (ex : Extraction) (gs : List Given) (run : Run) :
    (answer c ex gs run).Rated where
  confidence := by
    unfold answer
    dsimp only
    split
    · exact isScore_neutral
    · exact isScore_clamp _
  level := by
    unfold answer uncertainty
    dsimp only
    exact isScore_clamp _

theorem rated_reason (r : Registry) (c : Config) (m : Metrics) (input : Text)
    (context : Json) : (reason r c m input context).1.Rated := by
  unfold reason
  dsimp only
  split
  · exact Result.rated_neutral ..
  · exact rated_answer ..

end Classical

namespace Modal

theorem rated_answer (r : Registry) (c : Config) (input : Text) (ps : List Proposition)
    (ds : List Detection) : (answer r c input ps ds).Rated where
  confidence := by
    unfold answer
    dsimp only
    exact isScore_clamp _
  level := by
    unfold answer uncertainty
    dsimp only
    exact isScore_clamp _

theorem rated_reason (r : Registry) (c : Config) (m : Metrics) (input : Text)
    (context : Json) : (reason r c m input context).1.Rated := by
  unfold reason
  dsimp only
  split
  · exact Result.rated_neutral ..
  · split
    · exact Result.rated_neutral ..
    · exact rated_answer ..

end Modal

namespace Probability

theorem rated_answer (r : Registry) (input : Text) (ps : List Proposition) (e : Estimate) :
    (answer r input ps e).Rated where
  confidence := by
    unfold answer
    dsimp only
    exact isScore_clamp _
  level := by
    unfold answer uncertainty
    dsimp only
    exact isScore_clamp _

theorem rated_reason (r : Registry) (m : Metrics) (input : Text) (context : Json) :
    (reason r m input context).1.Rated := by
  unfold reason
  dsimp only
  split
  · exact Result.rated_neutral ..
  · exact rated_answer ..

end Probability

namespace Quantum

theorem Findings.rated_answer (f : Findings) (input : Text) : (f.answer input).Rated where
  confidence := by
    unfold answer confidence
    dsimp only
    exact isScore_clamp _
  level := by
    unfold answer uncertainty
    dsimp only
    exact isScore_clamp _

theorem rated_reason (r : Registry) (c : Config) (m : Metrics) (input : Text)
    (context : Json) : (reason r c m input context).1.Rated := by
  unfold reason
  dsimp only
  split
  · exact Result.rated_neutral ..
  · exact Findings.rated_answer ..

end Quantum

namespace Decision

theorem Ranking.rated_answer (k : Ranking) (c : Config) (input : Text) :
    (k.answer c input).Rated where
  confidence := by
    unfold answer
    dsimp only
    exact isScore_clamp _
  level := by
    unfold answer uncertainty
    dsimp only
    exact isScore_clamp _

theorem rated_reason (r : Registry) (c : Config) (m : Metrics) (input : Text)
    (context : Json) : (reason r c m input context).1.Rated := by
  unfold reason
  dsimp only
  split
  · exact Result.rated_neutral ..
  · exact Ranking.rated_answer ..

end Decision

/-! ## Domains -/

theorem Domain.isScore_relevance (d : Domain) (terms : List Text) :
    IsScore (d.relevance terms) :=
  isScore_smaller isScore_one
    ((Binary.unsigned_ofNat _).mul_left (by decide +kernel))

theorem DomainSolution.isScore_confidence (d : Domain) (terms : List Text) :
    IsScore (of d terms).confidence := by
  unfold of
  dsimp only
  split
  · decide +kernel
  · exact isScore_smaller (by decide +kernel) (.add (by decide +kernel)
      ((Binary.unsigned_ofNat _).mul_left (by decide +kernel)))

theorem UnifiedSolution.isScore_confidence (ss : List DomainSolution) :
    IsScore (if ss.isEmpty then none else of ss).confidence := by
  split
  · exact isScore_zero
  · exact isScore_clamp _

theorem DomainValidation.isScore_confidence (s : DomainSolution) (common : List Text) :
    IsScore (of s common).confidence := by
  unfold of
  dsimp only
  exact isScore_clamp _

namespace CrossDomainSolution

/-- The scores that a solution reports. -/
def scores (s : CrossDomainSolution) : List Single :=
  s.confidence :: s.unified.confidence :: s.relevance.values ++
    s.solutions.map (·.confidence) ++ s.validations.map (·.confidence)

variable {r : Registry} {c : Config} {problem : Text} {names : List Text}

theorem isScore_confidence : IsScore (of r c problem names).confidence := by
  unfold of
  dsimp only
  split
  · exact isScore_neutral
  · exact isScore_clamp _

theorem isScore_of_mem_scores {x : Single} (hx : x ∈ (of r c problem names).scores) :
    IsScore x := by
  simp only [scores, List.mem_append, List.mem_cons] at hx
  rcases hx with ((rfl | rfl | hx) | hx) | hx
  · exact isScore_confidence
  · exact UnifiedSolution.isScore_confidence _
  · obtain ⟨e, he, rfl⟩ := List.mem_map.1 hx
    obtain ⟨d, -, rfl⟩ := List.mem_map.1 (Dict.mem_of_mem_ofList he)
    dsimp only
    exact d.isScore_relevance problem.keywords
  · obtain ⟨s, hs, rfl⟩ := List.mem_map.1 hx
    obtain ⟨d, -, rfl⟩ := List.mem_map.1 hs
    exact DomainSolution.isScore_confidence ..
  · obtain ⟨v, hv, rfl⟩ := List.mem_map.1 hx
    obtain ⟨s, -, rfl⟩ := List.mem_map.1 hv
    exact DomainValidation.isScore_confidence ..

theorem rated_answer {s : CrossDomainSolution} (h : IsScore s.confidence) : s.answer.Rated where
  confidence := h
  level := by
    unfold answer uncertainty
    dsimp only
    exact isScore_clamp _

theorem rated_reason (r : Registry) (c : Config) (m : Metrics) (input : Text) (context : Json) :
    (reason r c m input context).1.Rated := by
  unfold reason
  split
  · exact rated_answer isScore_confidence
  · exact Result.rated_neutral ..

end CrossDomainSolution

namespace Transfer

/-- The scores that a transfer reports, with those of the mapping that it records. -/
def scores (t : Transfer) : List Single :=
  t.compatibility :: t.similarity.values ++
    t.mapping.toList.flatMap fun m => [m.similarity, m.confidence]

/-- A transfer that is rejected reports that nothing fits. -/
theorem scores_cases (r : Registry) (c : Config) (source target : Text) (knowledge : Json) :
    (∃ a b, Feasible r source target knowledge a b) ∨
      (of r c source target knowledge).scores = [0] := by
  unfold of
  dsimp only
  split
  · rename_i a b concept concepts ha hb hcons
    exact .inl ⟨a, b, ha, hb, by rw [hcons]; exact List.cons_ne_nil _ _⟩
  · exact .inr rfl

theorem isScore_of_mem_scores {r : Registry} (hr : r.WellFormed) {c : Config}
    {source target : Text} {knowledge : Json} {x : Single}
    (hx : x ∈ (of r c source target knowledge).scores) : IsScore x := by
  rcases scores_cases r c source target knowledge with ⟨a, b, hfeasible⟩ | hzero
  · have hpairs : ∀ pair ∈ (pairs r c a b source target knowledge).pairs,
        IsScore pair.similarity := fun pair hp =>
      TransferPlan.isScore_of_mem_pairs (fun m hm => (hr.mappings m hm).1) hp
    rw [of_eq_ofPairing hfeasible] at hx
    rcases List.mem_append.1 hx with hx | hx
    · rcases List.mem_cons.1 hx with hx | hx
      · rw [hx]
        exact isScore_compatibility
      · obtain ⟨e, he, rfl⟩ := List.mem_map.1 hx
        obtain ⟨_, -, hpair⟩ := Pairing.exists_pair (Pairing.mem_similarities.1 he)
        exact hpairs _ hpair
    · obtain ⟨m, hm, hx⟩ := List.mem_flatMap.1 hx
      obtain ⟨-, hconfidence, -, -, hpair⟩ := strongest_ofPairing hpairs (Option.mem_toList.1 hm)
      simp only [List.mem_cons, List.not_mem_nil, or_false] at hx
      rcases hx with rfl | rfl
      · exact hpairs _ hpair
      · rw [hconfidence]
        exact isScore_compatibility
  · rw [hzero, List.mem_singleton] at hx
    rw [hx]
    exact isScore_zero

end Transfer

/-! ## Analogies, abstractions, syntheses -/

namespace AnalogySearch

/-- The scores that a search reports. -/
def scores (s : AnalogySearch) : List Single :=
  s.found.flatMap fun a => [a.similarity, a.confidence]

theorem isScore_of_mem_scores {r : Registry} {c : Config} {source : Json} {target : Text}
    {x : Single} (hx : x ∈ (of r c source target).scores) : IsScore x := by
  obtain ⟨a, ha, hx⟩ := List.mem_flatMap.1 hx
  obtain ⟨d, s, e, rfl⟩ : ∃ d s e, Analogy.of d s e = a := by
    unfold of at ha
    split at ha
    · cases ha
    · dsimp only at ha
      split at ha
      · cases ha
      · obtain ⟨e, -, he⟩ := List.mem_map.1
          (List.mem_filter.1 (List.mem_mergeSort.1 (List.mem_of_mem_take ha))).1
        exact ⟨_, _, e, he⟩
  unfold Analogy.of at hx
  simp only [List.mem_cons, List.not_mem_nil, or_false] at hx
  rcases hx with hx | hx <;> rw [hx]
  · exact isScore_similarity ..
  · exact isScore_clamp _

end AnalogySearch

namespace AbstractionSearch

/-- The scores that a search reports. -/
def scores (s : AbstractionSearch) : List Single := s.found.map (·.confidence)

theorem isScore_of_mem_scores {r : Registry} {concepts names : List Text} {x : Single}
    (hx : x ∈ (of r concepts names).scores) : IsScore x := by
  obtain ⟨a, ha, rfl⟩ := List.mem_map.1 hx
  obtain ⟨feature, -, ha⟩ := List.mem_filterMap.1 (List.mem_mergeSort.1 ha)
  unfold Abstraction.of? at ha
  dsimp only at ha
  split at ha
  · cases ha
  · cases ha
    dsimp only
    exact isScore_clamp _

end AbstractionSearch

theorem InsightSynthesis.isScore_confidence (r : Registry) (insights names : List Text) :
    IsScore (of r insights names).confidence := by
  unfold of
  dsimp only
  exact isScore_clamp _

/-! ## Answers -/

/-- The scores that a result reports: its confidence, its uncertainty, and the confidence of
    every step of its proof. -/
def Result.scores (r : Result) : List Single :=
  r.confidence :: r.uncertainty.level :: r.proof.steps.map (·.confidence)

/-- The scores that an answer reports. -/
def Answer.scores : Answer → List Single
  | result r => r.scores
  | results rs => rs.flatMap fun r => r.2.scores
  | argument a => a.derivation.steps.map (·.confidence)
  | solution s => s.scores
  | transfer t => t.scores
  | analogies s => s.scores
  | abstractions s => s.scores
  | synthesis s => [s.confidence]
  | _ => []

namespace Engine

theorem rated_evaluate (r : Registry) (c : Config) (m : Metrics) (mode : Mode) (input : Text)
    (context : Json) : (evaluate r c m mode input context).1.Rated := by
  cases mode with
  | classical => exact Classical.rated_reason ..
  | modal => exact Modal.rated_reason ..
  | probabilistic => exact Probability.rated_reason ..
  | quantum => exact Quantum.rated_reason ..
  | decision => exact Decision.rated_reason ..
  | crossDomain => exact CrossDomainSolution.rated_reason ..

theorem isScore_reason (e : Engine) (mode : Mode) (input : Text) (context : Json) {x : Single}
    (hx : x ∈ (e.reason mode input context).1.scores) : IsScore x := by
  have hrated : (e.reason mode input context).1.Rated := rated_evaluate ..
  have haccepted : (e.reason mode input context).1.proof.Accepted := accepted_evaluate ..
  rcases List.mem_cons.1 hx with rfl | hx
  · exact hrated.confidence
  · rcases List.mem_cons.1 hx with rfl | hx
    · exact hrated.level
    · obtain ⟨s, hs, rfl⟩ := List.mem_map.1 hx
      exact haccepted.scored s hs

theorem isScore_reasonIn (e : Engine) (input : Text) (context : Json) (modes : List Mode) :
    ∀ r ∈ (e.reasonIn input context modes).1, ∀ x ∈ r.2.scores, IsScore x := by
  induction modes generalizing e with
  | nil => exact fun r hr => nomatch hr
  | cons mode modes ih =>
    intro r hr x hx
    rcases List.mem_cons.1 hr with rfl | hr
    · exact isScore_reason e mode input context hx
    · exact ih _ r hr x hx

/-- The answer to a registration says no more than whether it is accepted. -/
theorem scores_registered (e : Engine) (x : Except Registry.Error Engine) :
    (e.registered x).1.scores = [] := by
  cases x <;> rfl

/-- **Every score that is reported is a score.**  Whatever an engine with a registry that
    registrations and transfers can lead to is asked, under any configuration, no score in its
    answer is `nan`, below zero or above one; and neither is the certainty of a premise that is
    read from an input and a context. -/
theorem scores_bounded {e : Engine} (h : e.registry.Reachable) :
    (∀ q : Request, ∀ x ∈ (e.answer q).1.scores, x.isNaN = false ∧ IsScore x) ∧
    ∀ (input : Text) (context : Json), ∀ p ∈ (Extraction.extract input context).premises,
      p.certainty.isNaN = false ∧ IsScore p.certainty := by
  refine ⟨fun q x hx => ?_, fun input context p hp => ?_⟩
  · suffices hscore : IsScore x from ⟨hscore.isNaN, hscore⟩
    cases q with
    | reason mode input context => exact isScore_reason e mode input context hx
    | reasonAll input context =>
      obtain ⟨r, hr, hx⟩ := List.mem_flatMap.1 hx
      exact isScore_reasonIn e input context Mode.all r hr x hx
    | validateArgument premises conclusion =>
      obtain ⟨s, hs, rfl⟩ := List.mem_map.1 hx
      exact (Classical.accepted_validateArgument ..).scored s hs
    | across problem domains => exact CrossDomainSolution.isScore_of_mem_scores hx
    | transfer source target knowledge => exact Transfer.isScore_of_mem_scores h.wellFormed hx
    | analogies source target => exact AnalogySearch.isScore_of_mem_scores hx
    | abstractions concepts domains => exact AbstractionSearch.isScore_of_mem_scores hx
    | synthesize insights domains =>
      rw [List.mem_singleton.1 hx]
      exact InsightSynthesis.isScore_confidence ..
    | register record =>
      rw [answer, scores_registered] at hx
      cases hx
    | seed =>
      rw [answer, scores_registered] at hx
      cases hx
    | _ => cases hx
  · have hscore := Extraction.isScore_certainty input context p hp
    exact ⟨hscore.isNaN, hscore⟩

/-- A prior whose evidence is too large for single precision. -/
theorem scores_bounded_overflow :
    let e := Engine.seeded {}
    let q := Request.reason .probabilistic "It is likely that it rains."
      (.ofMembers [("priorProbability", .real 0.3), ("evidence", .real 1e39)])
    e.registry.Reachable ∧ (e.answer q).1.scores.length = 6 ∧
      ∀ x ∈ (e.answer q).1.scores, x.isNaN = false ∧ IsScore x := by
  intro e q
  have hreachable : e.registry.Reachable := reachable_seeded {}
  exact ⟨hreachable, by decide +kernel, (scores_bounded hreachable).1 q⟩

end Engine

end Reasoning
