/-
  The concept map of a transfer.

  Every concept of the knowledge is either paired or reported to have no analogue, once, and no
  two concepts are paired with the same concept of the target domain.

  * `Pairing.pairing_perm`: the concepts of the pairs and the unpaired ones are all the concepts;
  * `Pairing.keys_similarities`: both tables of a pairing have the same keys;
  * `Transfer.reports`: how often the issues of a transfer say that a concept has no analogue;
  * `Transfer.Assigns`, `Transfer.of_assigns`: what the concept map of every transfer is.
-/
import Mathlib.Data.List.Count
import Reasoning.Proofs.Renaming

namespace Reasoning

/-! ## Tables with the same keys -/

namespace Dict

variable {ν μ : Type}

theorem keys_insert_congr {d : Dict ν} {e : Dict μ} (h : d.keys = e.keys) (k : Text) (v : ν)
    (w : μ) : (d.insert k v).keys = (e.insert k w).keys := by
  induction d generalizing e with
  | nil =>
    obtain rfl : e = [] := List.map_eq_nil_iff.1 h.symm
    rfl
  | cons a d ih =>
    obtain ⟨b, e, rfl⟩ := List.exists_cons_of_ne_nil (l := e) (by rintro rfl; cases h)
    obtain ⟨hkey, hrest⟩ := List.cons.inj h
    obtain ⟨l, x⟩ := a
    obtain ⟨l', y⟩ := b
    obtain rfl : l = l' := hkey
    unfold insert
    split
    · exact congrArg (k :: l :: ·) hrest
    · split
      · exact congrArg (k :: ·) hrest
      · exact congrArg (l :: ·) (ih hrest)

/-- The keys of a table depend on the keys alone that it is made of. -/
theorem keys_ofList_congr {entries : List (Text × ν)} {entries' : List (Text × μ)}
    (h : entries.map (·.1) = entries'.map (·.1)) :
    (ofList entries).keys = (ofList entries').keys := by
  induction entries using List.reverseRecOn generalizing entries' with
  | nil =>
    obtain rfl : entries' = [] := List.map_eq_nil_iff.1 h.symm
    rfl
  | append_singleton entries e ih =>
    rw [List.map_append, List.map_singleton] at h
    obtain ⟨before, last, rfl, hbefore, hlast⟩ := List.map_eq_append_iff.1 h.symm
    obtain ⟨e', rfl, he⟩ := List.map_eq_singleton_iff.1 hlast
    rw [ofList_concat, ofList_concat, he]
    exact keys_insert_congr (ih hbefore.symm) ..

end Dict

/-! ## Paired or unpaired -/

/-- No concept of some knowledge comes twice. -/
theorem KnowledgeStructure.nodup_concepts (knowledge : Json) :
    (ofJson knowledge).concepts.Nodup := by
  show (conceptsOf knowledge).Nodup
  unfold conceptsOf
  split
  · exact Text.nodup_distinct _
  · exact Text.nodup_distinct _
  · exact Text.nodup_distinct _
  · exact List.nodup_nil

namespace Pairing

/-- The concepts that a pairing has dealt with. -/
def settled (p : Pairing) : List Text := p.pairs.map (·.concept) ++ p.unpaired

/-- Every concept is paired or unpaired, each once. -/
theorem pairing_perm (plan : TransferPlan) (concepts : List Text) :
    (plan.pairing concepts).settled.Perm concepts := by
  induction concepts using List.reverseRecOn with
  | nil => exact .nil
  | append_singleton concepts concept ih =>
    rw [TransferPlan.pairing_concat]
    -- The concept is put at the end of the pairs or at the end of the unpaired concepts.
    rcases plan.step_cases (plan.pairing concepts) concept with
      ⟨target, s, -, -, -, hstep⟩ | hstep <;> rw [hstep]
    · have hsettled : settled { plan.pairing concepts with
          pairs := (plan.pairing concepts).pairs ++ [⟨concept, target, s⟩] } =
          (plan.pairing concepts).pairs.map (·.concept) ++ concept ::
            (plan.pairing concepts).unpaired := by
        simp [settled]
      rw [hsettled]
      exact List.perm_middle.trans ((ih.cons concept).trans (List.perm_append_singleton ..).symm)
    · have hsettled : settled { plan.pairing concepts with
          unpaired := (plan.pairing concepts).unpaired ++ [concept] } =
          (plan.pairing concepts).settled ++ [concept] := by
        simp [settled]
      rw [hsettled]
      exact ih.append_right [concept]

variable {p : Pairing} {concept : Text}

/-- The tables of a pairing have the concepts of the pairs as their keys. -/
theorem keys_similarities (p : Pairing) : p.similarities.keys = p.targets.keys := by
  refine Dict.keys_ofList_congr ?_
  rw [List.map_map, List.map_map]
  rfl

theorem mem_keys_targets : concept ∈ p.targets.keys ↔ concept ∈ p.pairs.map (·.concept) := by
  rw [targets, Dict.mem_keys_ofList, List.map_map]
  rfl

/-- A concept is unpaired, once, if it has no partner. -/
theorem count_unpaired (hnodup : p.settled.Nodup) (h : concept ∈ p.settled) :
    p.unpaired.count concept = if p.targets.contains concept then 0 else 1 := by
  have hcount := List.count_eq_one_of_mem hnodup h
  rw [settled, List.count_append] at hcount
  split
  · rename_i hpaired
    have := List.count_pos_iff.2 (mem_keys_targets.1 (Dict.contains_iff.1 hpaired))
    omega
  · rename_i hpaired
    have := List.count_eq_zero.2 fun hmem =>
      hpaired (Dict.contains_iff.2 (mem_keys_targets.2 hmem))
    omega

end Pairing

/-! ## Reports -/

namespace Transfer

theorem Issue.message_noAnalogue_inj {target k l : Text} :
    (noAnalogue k target).message = (noAnalogue l target).message ↔ k = l := by
  simp only [message, List.append_assoc, List.append_cancel_left_eq, List.append_cancel_right_eq]

/-- The issues of a transfer begin with different words. -/
theorem Issue.message_incompatible_ne (x y : Single) (k target : Text) :
    (incompatible x y).message ≠ (noAnalogue k target).message := fun h => by
  have hhead := congrArg List.head? h
  revert hhead
  exact nofun

/-- The number of issues that say of a concept that it has no analogue. -/
def reports (t : Transfer) (concept : Text) : Nat :=
  (t.issues.map Issue.message).count (Issue.noAnalogue concept t.targetDomain).message

variable {c : Config} {sourceName targetName : Text} {knowledge : Json} {s : KnowledgeStructure}

/-- The issues of a pairing: the unpaired concepts, and maybe that it is not compatible. -/
theorem issues_ofPairing (c : Config) (sourceName targetName : Text) (knowledge : Json)
    (s : KnowledgeStructure) (p : Pairing) :
    ∃ rest, (ofPairing c sourceName targetName knowledge s p).issues =
        p.unpaired.map (Issue.noAnalogue · targetName) ++ rest ∧
      ∀ i ∈ rest, ∃ x y, i = Issue.incompatible x y := by
  refine ⟨_, rfl, fun i hi => ?_⟩
  split at hi
  · exact ⟨_, _, List.mem_singleton.1 hi⟩
  · cases hi

/-- A pairing reports the concepts that it leaves unpaired. -/
theorem reports_ofPairing (p : Pairing) (concept : Text) :
    (ofPairing c sourceName targetName knowledge s p).reports concept =
      p.unpaired.count concept := by
  obtain ⟨rest, hissues, hrest⟩ :=
    issues_ofPairing c sourceName targetName knowledge s p
  have hinj : Function.Injective fun k => (Issue.noAnalogue k targetName).message :=
    fun _ _ h => Issue.message_noAnalogue_inj.1 h
  have hothers : (rest.map Issue.message).count
      (Issue.noAnalogue concept targetName).message = 0 := by
    refine List.count_eq_zero.2 fun hmem => ?_
    obtain ⟨i, hi, he⟩ := List.mem_map.1 hmem
    obtain ⟨x, y, rfl⟩ := hrest i hi
    exact Issue.message_incompatible_ne _ _ _ _ he
  have htarget : (ofPairing c sourceName targetName knowledge s p).targetDomain = targetName := rfl
  rw [reports, htarget, hissues, List.map_append, List.count_append, hothers, List.map_map]
  exact List.count_map_of_injective p.unpaired _ hinj concept

/-! ## The concept map -/

/-- The concept map of a transfer is a partial injection: it maps concepts of the knowledge to
    concepts of the target domain, different ones to different ones, each with a similarity above
    the threshold, and the concepts without a partner are those that are reported, once each. -/
structure Assigns (t : Transfer) (target : Domain) (threshold : Single) : Prop where
  keys : t.similarity.keys = t.conceptMap.keys
  concepts : t.conceptMap.keys ⊆ t.outline.concepts
  injective : ∀ k l partner, t.conceptMap.get? k = some partner →
    t.conceptMap.get? l = some partner → k = l
  registered : ∀ k partner, t.conceptMap.get? k = some partner → target.concepts.contains partner
  similar : ∀ k s, t.similarity.get? k = some s → threshold < s
  reported : ∀ k ∈ t.outline.concepts, t.reports k = if t.conceptMap.contains k then 0 else 1

variable {r : Registry} {source target : Domain} {fromName toName : Text}

theorem exists_made {k partner : Text}
    (h : Dict.get? (pairs r c source target fromName toName knowledge).targets k = some partner) :
    ∃ s, (plan r c source target fromName toName knowledge).Makes
      (KnowledgeStructure.ofJson knowledge).concepts ⟨k, partner, s⟩ := by
  obtain ⟨s, hs⟩ := Pairing.exists_similarity h
  obtain ⟨partner', hpartner, hpair⟩ := Pairing.exists_pair hs
  obtain rfl : partner = partner' := Option.some.inj (h.symm.trans hpartner)
  exact ⟨s, TransferPlan.makes_of_mem_pairs hpair⟩

/-- **The concept map of a transfer is a partial injection.**  Whatever mappings earlier transfers
    have left, no target concept is given away twice, and every concept of the knowledge has a
    partner or is reported to have none. -/
theorem of_assigns (h : Feasible r fromName toName knowledge source target) :
    (Transfer.of r c fromName toName knowledge).Assigns target c.transferSimilarityThreshold := by
  have hperm := Pairing.pairing_perm (plan r c source target fromName toName knowledge)
    (KnowledgeStructure.ofJson knowledge).concepts
  have hnodup := hperm.nodup_iff.2 (KnowledgeStructure.nodup_concepts knowledge)
  rw [of_eq_ofPairing h]
  refine ⟨Pairing.keys_similarities _, fun k hk => ?_, fun k l partner => ?_,
    fun k partner hk => ?_, fun k s hs => ?_, fun k hk => ?_⟩
  · exact hperm.mem_iff.1 (List.mem_append_left _ (Pairing.mem_keys_targets.1 hk))
  · exact Pairing.eq_of_get?_targets (TransferPlan.nodup_targets _ _)
  · obtain ⟨s, before, after, -, hcandidate, hpartner, -⟩ := exists_made hk
    exact Dict.contains_iff.2 (TransferPlan.candidate_free hcandidate hpartner).1
  · obtain ⟨partner, -, hpair⟩ := Pairing.exists_pair hs
    obtain ⟨-, -, -, -, -, hsimilar⟩ := TransferPlan.makes_of_mem_pairs hpair
    exact hsimilar
  · rw [reports_ofPairing]
    exact Pairing.count_unpaired hnodup (hperm.mem_iff.2 hk)

/-- What biology calls adaptation and immunity has partners in technology, and chlorophyll has
    none. -/
theorem of_assigns_adaptation :
    let knowledge := Json.array [.ofText "adaptation", .ofText "immunity", .ofText "chlorophyll"]
    let t := Transfer.of .seeded {} "biology" "technology" knowledge
    ∃ source target, Feasible .seeded "biology" "technology" knowledge source target ∧
      t.conceptMap.keys = Text.ofStrings ["adaptation", "immunity"] ∧
      t.Assigns target ({} : Config).transferSimilarityThreshold ∧ t.reports "chlorophyll" = 1 := by
  intro knowledge t
  obtain ⟨source, hsource⟩ := Option.isSome_iff_exists.1
    (show (Registry.seeded.domain? (Domain.lookupName "biology")).isSome by decide +kernel)
  obtain ⟨target, htarget⟩ := Option.isSome_iff_exists.1
    (show (Registry.seeded.domain? (Domain.lookupName "technology")).isSome by decide +kernel)
  have hfeasible : Feasible .seeded "biology" "technology" knowledge source target :=
    ⟨hsource, htarget, by decide⟩
  have hkeys : t.conceptMap.keys = Text.ofStrings ["adaptation", "immunity"] := by decide +kernel
  have hassigns := of_assigns (c := {}) hfeasible
  have hreports : t.reports "chlorophyll" = 1 :=
    (hassigns.reported "chlorophyll" (by decide +kernel)).trans (by decide +kernel)
  exact ⟨source, target, hfeasible, hkeys, hassigns, hreports⟩

end Transfer

end Reasoning
