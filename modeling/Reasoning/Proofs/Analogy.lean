/-
  The analogies that are reported.

  The concepts that are alike enough are ranked by confidence, and of these as many are reported as
  the configuration allows.  What is cut off is no better than what is reported.  A structure
  without features is compared with nothing, whatever the configuration asks for.

  * `Analogy.Qualifies`, `Analogy.qualifies_iff_lt`, `Analogy.mem_ranked`: which concepts are alike
    enough;
  * `AnalogySearch.Picks`, `AnalogySearch.of_picks`: what is reported is a best selection.
-/
import Reasoning.Proofs.Bounds
import Reasoning.Proofs.Dict
import Reasoning.Proofs.Ranking

namespace Reasoning

/-! ## Concepts that are alike enough -/

namespace Analogy

variable {c : Config} {d : Domain} {s : Signature} {concept : Text × Concept} {a : Analogy}

/-- The concept is alike enough: what the structure shares with it is not at or below the minimum
    of the configuration. -/
def Qualifies (c : Config) (s : Signature) (concept : Text × Concept) : Prop :=
  ¬ Reasoning.similarity s.properties concept.2.features ≤ c.analogyMinSimilarity

instance : Decidable (Qualifies c s concept) := inferInstanceAs (Decidable (¬ _))

/-- If the minimum is a number, this is to exceed it. -/
theorem qualifies_iff_lt (hmin : c.analogyMinSimilarity.isNaN = false) : Qualifies c s concept ↔
    c.analogyMinSimilarity < Reasoning.similarity s.properties concept.2.features := by
  have hscore := (isScore_similarity s.properties concept.2.features).isNaN
  constructor
  · intro h
    by_contra hlt
    exact h (Binary.le_of_not_lt hmin hscore hlt)
  · exact fun hlt hle => Binary.not_lt_of_le hle hlt

theorem mem_ranked : a ∈ ranked c d s ↔
    ∃ concept ∈ d.concepts, Qualifies c s concept ∧ of d s concept = a := by
  unfold ranked Qualifies
  rw [List.mem_mergeSort, List.mem_filter, List.mem_map, Bool.not_eq_true', decide_eq_false_iff_not]
  constructor
  · rintro ⟨⟨concept, hconcept, rfl⟩, halike⟩
    exact ⟨concept, hconcept, halike, rfl⟩
  · rintro ⟨concept, hconcept, halike, rfl⟩
    exact ⟨⟨concept, hconcept, rfl⟩, halike⟩

theorem isScore_confidence (d : Domain) (s : Signature) (concept : Text × Concept) :
    Score.IsScore (of d s concept).confidence := by
  unfold of
  dsimp only
  exact Score.isScore_clamp _

/-- The concepts of a table are compared in their order. -/
theorem pairwise_concepts (hconcepts : d.concepts.Sorted) (c : Config) (s : Signature) :
    ((d.concepts.map (of d s)).filter fun a =>
      !decide (a.similarity ≤ c.analogyMinSimilarity)).Pairwise
      fun a b => a.targetConcept.before b.targetConcept :=
  List.Pairwise.filter _ (List.pairwise_map.2 hconcepts)

theorem ranked_ranked (hconcepts : d.concepts.Sorted) (c : Config) (s : Signature) :
    Ranked (·.confidence) (·.targetConcept) (ranked c d s) := by
  refine ranked_mergeSort (fun a ha => ?_) (pairwise_concepts hconcepts c s)
  obtain ⟨concept, -, rfl⟩ := List.mem_map.1 (List.mem_filter.1 ha).1
  exact (isScore_confidence d s concept).isNaN

theorem nodup_ranked (hconcepts : d.concepts.Sorted) (c : Config) (s : Signature) :
    ((ranked c d s).map (·.targetConcept)).Nodup :=
  StableSort.nodup_mergeSort (pairwise_concepts hconcepts c s)

end Analogy

/-! ## Reported analogies -/

namespace AnalogySearch

open Analogy (Qualifies)

/-- A best selection of the concepts that are alike enough. -/
structure Picks (c : Config) (d : Domain) (s : Signature) (found : List Analogy) : Prop where
  limited : found.length ≤ c.maxAnalogies
  alike : ∀ a ∈ found, ∃ concept ∈ d.concepts, Qualifies c s concept ∧ Analogy.of d s concept = a
  once : (found.map (·.targetConcept)).Nodup
  ranked : Ranked (·.confidence) (·.targetConcept) found
  best : ∀ concept ∈ d.concepts, Qualifies c s concept → Analogy.of d s concept ∉ found →
    found.length = c.maxAnalogies ∧
      ∀ a ∈ found, (Analogy.of d s concept).confidence ≤ a.confidence

theorem picks_take {d : Domain} (hconcepts : d.concepts.Sorted) (c : Config) (s : Signature) :
    Picks c d s ((Analogy.ranked c d s).take c.maxAnalogies) where
  limited := List.length_take_le _ _
  alike a ha := Analogy.mem_ranked.1 (List.mem_of_mem_take ha)
  once := (Analogy.nodup_ranked hconcepts c s).sublist ((List.take_sublist _ _).map _)
  ranked := (Analogy.ranked_ranked hconcepts c s).sublist (List.take_sublist _ _)
  best concept hconcept halike hout := by
    have hmem := Analogy.mem_ranked.2 ⟨concept, hconcept, halike, rfl⟩
    rw [← List.take_append_drop c.maxAnalogies (Analogy.ranked c d s)] at hmem
    have hdrop := (List.mem_append.1 hmem).resolve_left hout
    have hlong := List.length_pos_of_mem hdrop
    rw [List.length_drop] at hlong
    refine ⟨List.length_take_of_le (by omega), fun a ha => ?_⟩
    exact (Analogy.ranked_ranked hconcepts c s).le_of_mem_drop ha hdrop

section
variable {r : Registry} {toName : Text} {d : Domain} {c : Config} {source : Json}

theorem found_eq_nil (h : (Signature.ofJson source r.domains.items).properties = []) :
    (of r c source toName).found = [] := by
  unfold of
  cases r.domain? (Domain.lookupName toName) with
  | none => rfl
  | some d =>
    dsimp only
    rw [if_pos (List.isEmpty_iff.2 h)]

theorem picks_found (hd : r.domain? (Domain.lookupName toName) = some d)
    (hconcepts : d.concepts.Sorted)
    (h : (Signature.ofJson source r.domains.items).properties ≠ []) :
    Picks c d (.ofJson source r.domains.items) (of r c source toName).found := by
  unfold of
  rw [hd]
  dsimp only
  rw [if_neg (mt List.isEmpty_iff.1 h)]
  exact picks_take hconcepts c _

end

/-- **The best analogies are reported.**  For a structure without features there are none.  For any
    other there are at most as many as allowed, each with another concept of the domain that is
    alike enough, the most confident first and then by name.  As long as there is room none is left
    out, and one that is left out is not more confident than any that is reported.  To be alike
    enough is to exceed the minimum, if that is a number.  The concepts of the domain are a table,
    as all that is read or built in is. -/
theorem of_picks {r : Registry} {toName : Text} {d : Domain}
    (hd : r.domain? (Domain.lookupName toName) = some d) (hconcepts : d.concepts.Sorted)
    (c : Config) (source : Json) :
    let s := Signature.ofJson source r.domains.items
    let found := (of r c source toName).found
    (s.properties = [] → found = []) ∧ (s.properties ≠ [] → Picks c d s found) ∧
      (c.analogyMinSimilarity.isNaN = false → ∀ concept, Qualifies c s concept ↔
        c.analogyMinSimilarity < similarity s.properties concept.2.features) :=
  ⟨found_eq_nil, picks_found hd hconcepts, fun hmin _ => Analogy.qualifies_iff_lt hmin⟩

/-- Two concepts of technology at most are reported, and a control loop is like this source. -/
theorem of_picks_two :
    let r := Registry.seeded
    let c := Config.ofJson (.ofMembers [("max_analogies", .ofNat 2)])
    let d := Registry.Seed.technology
    let source := Json.ofText "Feedback in networks"
    let s := Signature.ofJson source r.domains.items
    let found := (of r c source " Technology").found
    let loop : Text × Concept := (Text.ofString "control loop",
      ⟨"control loop", Text.ofStrings ["feedback", "balance", "stability", "signal"]⟩)
    r.domain? (Domain.lookupName " Technology") = some d ∧ d.concepts.Sorted ∧
      s.properties ≠ [] ∧ Picks c d s found ∧ Qualifies c s loop ∧
      (Analogy.of d s loop ∈ found ∨
        found.length = 2 ∧ ∀ a ∈ found, (Analogy.of d s loop).confidence ≤ a.confidence) := by
  intro r c d source s found loop
  have hd : r.domain? (Domain.lookupName " Technology") = some d := by decide +kernel
  have hconcepts : d.concepts.Sorted := Dict.sorted_ofList _
  have hs : s.properties ≠ [] := by decide +kernel
  have hpicks : Picks c d s found := (of_picks hd hconcepts c source).2.1 hs
  have hloop : Qualifies c s loop := by decide +kernel
  exact ⟨hd, hconcepts, hs, hpicks, hloop, or_iff_not_imp_left.2 fun hout =>
    hpicks.best loop (by decide +kernel) hloop hout⟩

/-- What exceeds the minimum and is left out, and the other way round.  A domain with a capital
    letter is registered, and not found under its name.  For a structure without features every
    concept of art exceeds a minimum below zero, and none is reported.  Under a minimum that is no
    number concepts are reported, and none exceeds it. -/
theorem of_leaves_out :
    let chemistry : Domain := ⟨"Chemistry", [("bond", ⟨"bond", ["link"]⟩)], [], [], []⟩
    let bare := ((Engine.bare {}).answer (.register (.domain chemistry))).2.registry
    let link := Json.ofMembers [("link", .ofText "x")]
    let seeded := Registry.seeded
    let art := Registry.Seed.art
    let usual : Config := {}
    let below : Config := { analogyMinSimilarity := -1 }
    let unordered : Config := { analogyMinSimilarity := .nan }
    (chemistry ∈ bare.domains.items ∧
      (∀ concept ∈ chemistry.concepts, usual.analogyMinSimilarity <
        similarity (Signature.ofJson link bare.domains.items).properties concept.2.features) ∧
      usual.maxAnalogies = 5 ∧ (of bare usual link chemistry.name).found = []) ∧
    (seeded.domain? (Domain.lookupName "art") = some art ∧ art.concepts ≠ [] ∧
      (∀ concept ∈ art.concepts, below.analogyMinSimilarity <
        similarity (Signature.ofJson (.object []) seeded.domains.items).properties
          concept.2.features) ∧
      below.maxAnalogies = 5 ∧ (of seeded below (.object []) "art").found = []) ∧
    ∃ a ∈ (of seeded unordered (.ofText "Balance") "art").found,
      ¬ unordered.analogyMinSimilarity < a.similarity := by
  intro chemistry bare link seeded art usual below unordered
  have hart : seeded.domain? (Domain.lookupName "art") = some art := by decide +kernel
  refine ⟨⟨by decide +kernel, by decide +kernel, rfl, by decide +kernel⟩,
    ⟨hart, by decide +kernel, by decide +kernel, rfl, by decide +kernel⟩, ?_⟩
  have hpicks : Picks unordered art _ (of seeded unordered (.ofText "Balance") "art").found :=
    picks_found hart (Dict.sorted_ofList _) (by decide +kernel)
  have hno (x : Single) : ¬ unordered.analogyMinSimilarity < x := fun hlt =>
    Bool.noConfusion (Binary.lt_iff.1 hlt).1
  have hsome : (of seeded unordered (.ofText "Balance") "art").found ≠ [] := by
    intro hnone
    rw [hnone] at hpicks
    obtain ⟨concept, hconcept⟩ : ∃ concept, concept ∈ art.concepts :=
      List.exists_mem_of_ne_nil _ (by decide +kernel)
    have halike : Qualifies unordered (.ofJson (.ofText "Balance") seeded.domains.items) concept :=
      fun hle => Bool.noConfusion (Binary.le_iff.1 hle).2.1
    have hfull := (hpicks.best concept hconcept halike List.not_mem_nil).1
    cases hfull
  obtain ⟨a, ha⟩ := List.exists_mem_of_ne_nil _ hsome
  exact ⟨a, ha, hno _⟩

end AnalogySearch

end Reasoning
