/-
  Transfers and what they leave in the registry.

  * `Pairing.targets`, `Pairing.similarities`: the two tables of a pairing, which speak of the
    same pairs;
  * `Transfer.Strongest`: a mapping is the strongest pair of a transfer;
  * `Transfer.of_cases`: a transfer that pairs concepts, and one that is rejected;
  * `Engine.transfer_records`: a transfer that succeeds adds its mapping to the registry, and one
    that does not leaves the registry as it is.
-/
import Reasoning.Proofs.Dict
import Reasoning.Proofs.Pairing
import Reasoning.Proofs.Registration
import Reasoning.Proofs.Text

namespace Reasoning

open Score

/-! ## The tables of a pairing -/

namespace Pairing

/-- The target of each concept; of several pairs of a concept the last one counts. -/
def targets (p : Pairing) : Dict Text :=
  Dict.ofList (p.pairs.map fun pair => (pair.concept, pair.target))

/-- How alike each concept is to its target. -/
def similarities (p : Pairing) : Dict Single :=
  Dict.ofList (p.pairs.map fun pair => (pair.concept, pair.similarity))

variable {p : Pairing} {concept : Text}

theorem get?_targets (p : Pairing) (concept : Text) :
    Dict.get? p.targets concept =
      (p.pairs.reverse.find? (·.concept == concept)).map (·.target) :=
  Dict.get?_ofList_map _ _ p.pairs concept

theorem get?_similarities (p : Pairing) (concept : Text) :
    Dict.get? p.similarities concept =
      (p.pairs.reverse.find? (·.concept == concept)).map (·.similarity) :=
  Dict.get?_ofList_map _ _ p.pairs concept

theorem exists_similarity {target : Text} (h : Dict.get? p.targets concept = some target) :
    ∃ s, Dict.get? p.similarities concept = some s := by
  rw [get?_targets, Option.map_eq_some_iff] at h
  obtain ⟨pair, hpair, -⟩ := h
  exact ⟨pair.similarity, by rw [get?_similarities, hpair]; rfl⟩

theorem exists_pair {s : Single} (h : Dict.get? p.similarities concept = some s) :
    ∃ target, Dict.get? p.targets concept = some target ∧ ⟨concept, target, s⟩ ∈ p.pairs := by
  rw [get?_similarities, Option.map_eq_some_iff] at h
  obtain ⟨pair, hpair, rfl⟩ := h
  have hconcept : pair.concept = concept := by simpa using List.find?_some hpair
  refine ⟨pair.target, by rw [get?_targets, hpair]; rfl, ?_⟩
  rw [← hconcept]
  exact List.mem_reverse.1 (List.mem_of_find?_eq_some hpair)

theorem mem_similarities {e : Text × Single} :
    e ∈ p.similarities ↔ Dict.get? p.similarities e.1 = some e.2 :=
  Dict.Sorted.mem_iff (Dict.sorted_ofList _)

theorem similarities_ne_nil (h : p.targets ≠ []) : p.similarities ≠ [] := by
  obtain ⟨e, d, hd⟩ := List.exists_cons_of_ne_nil h
  have htarget : Dict.get? p.targets e.1 = some e.2 := by
    rw [hd, Dict.get?_cons, if_pos rfl]
  obtain ⟨s, hs⟩ := exists_similarity htarget
  exact List.ne_nil_of_mem (mem_similarities (e := (e.1, s)).2 hs)

end Pairing

namespace Transfer

/-! ## The strongest pair -/

/-- The mapping is a pair of the transfer of which no pair is more alike, of several the one whose
    concept comes first. -/
structure Strongest (t : Transfer) (m : Mapping) : Prop where
  paired : Dict.get? t.conceptMap m.sourceConcept = some m.targetConcept
  alike : Dict.get? t.similarity m.sourceConcept = some m.similarity
  strongest : ∀ concept target, Dict.get? t.conceptMap concept = some target →
    ∃ s, Dict.get? t.similarity concept = some s ∧ s ≤ m.similarity ∧
      (m.similarity ≤ s → concept = m.sourceConcept ∨ m.sourceConcept.before concept)

variable {p : Pairing}

/-- The entry that is looked for is the strongest, and the first of the strongest. -/
theorem strongest_of_strongest? (h : ∀ pair ∈ p.pairs, IsScore pair.similarity)
    {e : Text × Single} (he : strongest? p.similarities = some e) :
    Dict.get? p.similarities e.1 = some e.2 ∧
      ∀ concept s, Dict.get? p.similarities concept = some s →
        s ≤ e.2 ∧ (e.2 ≤ s → concept = e.1 ∨ e.1.before concept) := by
  have hscore : ∀ f ∈ p.similarities, IsScore f.2 := fun f hf => by
    obtain ⟨target, -, hpair⟩ := Pairing.exists_pair (Pairing.mem_similarities.1 hf)
    exact h _ hpair
  obtain ⟨before, after, hsplit, hbefore, hafter⟩ := strongest?_eq_some hscore he
  have hmem : e ∈ p.similarities := by simp [hsplit]
  refine ⟨Pairing.mem_similarities.1 hmem, fun concept s hs => ?_⟩
  have hf := Pairing.mem_similarities (e := (concept, s)).2 hs
  rw [hsplit, List.mem_append, List.mem_cons] at hf
  rcases hf with hf | rfl | hf
  · exact ⟨Binary.le_of_lt (hbefore _ hf), fun hle => absurd (hbefore _ hf)
      (Binary.not_lt_of_le hle)⟩
  · exact ⟨Binary.le_refl (hscore _ hmem).isNaN, fun _ => .inl rfl⟩
  · refine ⟨hafter _ hf, fun _ => .inr ?_⟩
    have hsorted : p.similarities.Sorted := Dict.sorted_ofList _
    rw [hsplit] at hsorted
    exact (List.pairwise_cons.1 (List.pairwise_append.1 hsorted).2.1).1 _ hf

section
variable {c : Config} {sourceName targetName : Text} {knowledge : Json} {s : KnowledgeStructure}

theorem mapping_ofPairing_eq_some {m : Mapping} :
    (ofPairing c sourceName targetName knowledge s p).mapping = some m ↔
      (ofPairing c sourceName targetName knowledge s p).success = true ∧
      ∃ e, strongest? p.similarities = some e ∧
        ⟨sourceName, targetName, e.1, renamed p.targets e.1, e.2,
          (ofPairing c sourceName targetName knowledge s p).compatibility,
          reasoning p.targets⟩ = m := by
  simp only [ofPairing, Pairing.targets, Pairing.similarities, Option.ite_none_right_eq_some,
    Option.map_eq_some_iff]

/-- The mapping of a transfer is its strongest pair. -/
theorem strongest_ofPairing (h : ∀ pair ∈ p.pairs, IsScore pair.similarity) {m : Mapping}
    (hm : (ofPairing c sourceName targetName knowledge s p).mapping = some m) :
    (ofPairing c sourceName targetName knowledge s p).Strongest m ∧
      m.confidence = (ofPairing c sourceName targetName knowledge s p).compatibility ∧
      m.sourceDomain = sourceName ∧ m.targetDomain = targetName ∧
      ⟨m.sourceConcept, m.targetConcept, m.similarity⟩ ∈ p.pairs := by
  obtain ⟨-, e, he, rfl⟩ := mapping_ofPairing_eq_some.1 hm
  obtain ⟨halike, hstrongest⟩ := strongest_of_strongest? h he
  obtain ⟨target, htarget, hpair⟩ := Pairing.exists_pair halike
  have hname : renamed p.targets e.1 = target := by
    rw [renamed, htarget, Option.getD_some]
  rw [hname]
  refine ⟨⟨htarget, halike, fun concept target hconcept => ?_⟩, by dsimp only, rfl, rfl, hpair⟩
  obtain ⟨s, hs⟩ := Pairing.exists_similarity hconcept
  exact ⟨s, hs, hstrongest concept s hs⟩

theorem isScore_compatibility :
    IsScore (ofPairing c sourceName targetName knowledge s p).compatibility := by
  unfold ofPairing
  dsimp only
  exact isScore_clamp _

/-- A transfer that succeeds has a mapping. -/
theorem exists_mapping_ofPairing
    (h : (ofPairing c sourceName targetName knowledge s p).success = true) :
    ∃ m, (ofPairing c sourceName targetName knowledge s p).mapping = some m := by
  have hsome : p.targets ≠ [] := by
    intro hnil
    have : (!p.targets.isEmpty && decide _) = true := h
    simp [hnil] at this
  obtain ⟨e, he⟩ := Option.ne_none_iff_exists'.1
    (strongest?_eq_none.not.2 (Pairing.similarities_ne_nil hsome))
  exact ⟨_, mapping_ofPairing_eq_some.2 ⟨h, e, he, rfl⟩⟩

end

/-! ## Transfers between domains -/

/-- What a transfer between two domains goes by. -/
def plan (r : Registry) (c : Config) (source target : Domain) (fromName toName : Text)
    (knowledge : Json) : TransferPlan :=
  ⟨Domain.lookupName fromName, Domain.lookupName toName, source.concepts, target.concepts,
    knowledge, r.mappings, c.transferSimilarityThreshold⟩

/-- The pairing that a transfer of some knowledge comes of. -/
def pairs (r : Registry) (c : Config) (source target : Domain) (fromName toName : Text)
    (knowledge : Json) : Pairing :=
  (plan r c source target fromName toName knowledge).pairing
    (KnowledgeStructure.ofJson knowledge).concepts

/-- Both domains are known, and there are concepts to pair. -/
structure Feasible (r : Registry) (fromName toName : Text) (knowledge : Json)
    (source target : Domain) : Prop where
  source : r.domain? (Domain.lookupName fromName) = some source
  target : r.domain? (Domain.lookupName toName) = some target
  concepts : (KnowledgeStructure.ofJson knowledge).concepts ≠ []

variable {r : Registry} {c : Config} {source target : Domain} {fromName toName : Text}
  {knowledge : Json}

theorem of_eq_ofPairing (h : Feasible r fromName toName knowledge source target) :
    Transfer.of r c fromName toName knowledge =
      ofPairing c (Domain.lookupName fromName) (Domain.lookupName toName) knowledge
        (KnowledgeStructure.ofJson knowledge)
        (pairs r c source target fromName toName knowledge) := by
  obtain ⟨concept, concepts, hcons⟩ := List.exists_cons_of_ne_nil h.concepts
  unfold Transfer.of
  simp only [h.source, h.target, hcons]
  rfl

/-- A transfer pairs concepts of known domains, or it is rejected. -/
theorem of_cases (r : Registry) (c : Config) (fromName toName : Text) (knowledge : Json) :
    (∃ source target, Feasible r fromName toName knowledge source target) ∨
    (Transfer.of r c fromName toName knowledge).success = false ∧
      (Transfer.of r c fromName toName knowledge).mapping = none := by
  unfold Transfer.of
  dsimp only
  split
  · rename_i source target concept concepts hsource htarget hcons
    exact .inl ⟨source, target, hsource, htarget, by rw [hcons]; exact List.cons_ne_nil _ _⟩
  · exact .inr ⟨rfl, rfl⟩

theorem outline_of (r : Registry) (c : Config) (fromName toName : Text) (knowledge : Json) :
    (Transfer.of r c fromName toName knowledge).outline = KnowledgeStructure.ofJson knowledge := by
  unfold Transfer.of
  dsimp only
  split <;> rfl

/-- The mapping is what the transfer leaves behind. -/
structure Records (t : Transfer) (m : Mapping) : Prop where
  mapping : t.mapping = some m
  sourceDomain : m.sourceDomain = t.sourceDomain
  targetDomain : m.targetDomain = t.targetDomain
  strongest : t.Strongest m
  confidence : m.confidence = t.compatibility

theorem Records.recordMapping {t : Transfer} {m : Mapping} (h : t.Records m) {s : Registry}
    (hadd : r.addMapping m = .ok s) : t.recordMapping r = s := by
  unfold Transfer.recordMapping
  rw [h.mapping]
  dsimp only
  rw [hadd]
  rfl

/-- A transfer that succeeds has a mapping, which every registry accepts as it is. -/
theorem of_success (hr : r.WellFormed)
    (h : (Transfer.of r c fromName toName knowledge).success = true) :
    ∃ source target m, Feasible r fromName toName knowledge source target ∧
      (Transfer.of r c fromName toName knowledge).Records m ∧
      ⟨m.sourceConcept, m.targetConcept, m.similarity⟩ ∈
        (pairs r c source target fromName toName knowledge).pairs ∧
      ∀ r' : Registry, r'.addMapping m = .ok { r' with mappings := r'.mappings ++ [m] } := by
  rcases of_cases r c fromName toName knowledge with ⟨source, target, hfeasible⟩ | ⟨hno, -⟩
  · have hscore : ∀ pair ∈ (pairs r c source target fromName toName knowledge).pairs,
        IsScore pair.similarity := fun pair hp =>
      TransferPlan.isScore_of_mem_pairs (fun m hm => (hr.mappings m hm).1) hp
    rw [of_eq_ofPairing hfeasible] at h ⊢
    obtain ⟨m, hm⟩ := exists_mapping_ofPairing h
    obtain ⟨hstrongest, hconfidence, hs, ht, hpair⟩ := strongest_ofPairing hscore hm
    refine ⟨source, target, m, hfeasible, ⟨hm, hs, ht, hstrongest, hconfidence⟩, hpair,
      Registry.addMapping_eq ?_ ?_ ?_ ?_⟩
    · rw [hs]
      exact hr.name_ne_nil hfeasible.source
    · rw [ht]
      exact hr.name_ne_nil hfeasible.target
    · exact hscore _ hpair
    · rw [hconfidence]
      exact isScore_compatibility
  · rw [h] at hno
    cases hno

/-- A transfer that does not succeed has no mapping. -/
theorem mapping_of_failure (h : (Transfer.of r c fromName toName knowledge).success = false) :
    (Transfer.of r c fromName toName knowledge).mapping = none := by
  rcases of_cases r c fromName toName knowledge with ⟨source, target, hfeasible⟩ | ⟨-, hno⟩
  · rw [of_eq_ofPairing hfeasible] at h ⊢
    rw [Option.eq_none_iff_forall_ne_some]
    intro m hm
    rw [(mapping_ofPairing_eq_some.1 hm).1] at h
    cases h
  · exact hno

end Transfer

/-- Every concept of an object is a member of it. -/
theorem KnowledgeStructure.isSome_member? {knowledge : Json} (hobject : knowledge.isObject)
    {concept : Text} (h : concept ∈ (ofJson knowledge).concepts) :
    (knowledge.member? concept).isSome := by
  cases knowledge with
  | object ms =>
    have hkey : concept ∈ Dict.keys ms := (List.mem_filter.1 (Text.mem_distinct.1 h)).1
    obtain ⟨m, hm, rfl⟩ := List.mem_map.1 hkey
    exact List.lookup_isSome_iff.2 ⟨m, hm, beq_self_eq_true _⟩
  | _ => cases hobject

namespace Engine

/-- **What a transfer leaves in the registry.**  If it succeeds, it is the mapping of its strongest
    pair, and if it does not, nothing.  No look-up fails on the way, and the mapping is
    accepted. -/
theorem transfer_records {e : Engine} (h : e.registry.Reachable) (source target : Text)
    (knowledge : Json) :
    let t := (e.transfer source target knowledge).1
    let after := (e.transfer source target knowledge).2.registry
    (knowledge.isObject → ∀ concept ∈ t.outline.concepts, (knowledge.member? concept).isSome) ∧
    (t.success = true → ∃ m, t.Records m ∧ e.registry.addMapping m = .ok after ∧
      after = { e.registry with mappings := e.registry.mappings ++ [m] }) ∧
    (t.success = false → t.mapping = none ∧ after = e.registry) := by
  intro t after
  refine ⟨fun hobject concept hconcept => ?_, fun hsuccess => ?_, fun hfailure => ?_⟩
  · have houtline : t.outline = KnowledgeStructure.ofJson knowledge := Transfer.outline_of ..
    rw [houtline] at hconcept
    exact KnowledgeStructure.isSome_member? hobject hconcept
  · obtain ⟨_, _, m, -, hm, -, hadd⟩ := Transfer.of_success h.wellFormed hsuccess
    have hafter : after = { e.registry with mappings := e.registry.mappings ++ [m] } :=
      hm.recordMapping (hadd e.registry)
    exact ⟨m, hm, by rw [hafter]; exact hadd e.registry, hafter⟩
  · have hnone : t.mapping = none := Transfer.mapping_of_failure hfailure
    refine ⟨hnone, ?_⟩
    show Transfer.recordMapping t e.registry = _
    unfold Transfer.recordMapping
    rw [hnone]

/-- What biology says of two concepts is carried to technology. -/
theorem transfer_records_adaptation :
    let e := Engine.seeded {}
    let knowledge := Json.ofMembers [("adaptation", .ofText "feedback driven change"),
      ("feedback", .ofText "regulation")]
    let t := (e.transfer "biology" "technology" knowledge).1
    e.registry.Reachable ∧ t.success = true ∧
      ∃ m, t.Records m ∧ (e.transfer "biology" "technology" knowledge).2.registry =
        { e.registry with mappings := e.registry.mappings ++ [m] } := by
  intro e knowledge t
  have hreachable : e.registry.Reachable := reachable_seeded {}
  have hsuccess : t.success = true := by decide +kernel
  obtain ⟨-, hrecords, -⟩ := transfer_records hreachable "biology" "technology" knowledge
  obtain ⟨m, hm, -, hafter⟩ := hrecords hsuccess
  exact ⟨hreachable, hsuccess, m, hm, hafter⟩

end Engine

end Reasoning
