/-
  Keys that are renamed.

  A transfer gives the keys of an object the names of the target domain, and a key that has no
  partner keeps its own.  No two keys get the same partner, but a partner may be the name of a
  key that stays as it is, and then one of the two members takes the place of the other.

  * `TransferPlan.nodup_targets`: every target concept is the partner of one concept at most;
  * `Transfer.nodup_renamed_iff`: when the new names of keys differ;
  * `Transfer.of_object_keeps_iff`: the objects of which nothing is lost.
-/
import Mathlib.Data.List.Nodup
import Reasoning.Proofs.Transfer

namespace Reasoning

/-! ## One concept for each target -/

namespace TransferPlan

variable {plan : TransferPlan} {p : Pairing} {concept : Text} {concepts : List Text}

/-- The more similar of several candidates is the first one or one of the others. -/
theorem target_foldl_better (profile : List Text) (cs : Dict Concept) (best : Candidate) :
    (cs.foldl (better profile) best).target = best.target ∨
      (cs.foldl (better profile) best).target ∈ cs.keys := by
  induction cs generalizing best with
  | nil => exact .inl rfl
  | cons c cs ih =>
    rw [List.foldl_cons, Dict.keys, List.map_cons, List.mem_cons]
    rcases ih (better profile best c) with he | hmem
    · rw [he]
      unfold better
      dsimp only
      split
      · exact .inr (.inl rfl)
      · exact .inl rfl
    · exact .inr (.inr hmem)

/-- The most similar of the free target concepts is one of them. -/
theorem free_foldl_better {profile : List Text} {best c : Candidate} (hbest : best.target = [])
    (hc : (plan.targetConcepts.filter fun c => !p.uses c.1).foldl (better profile) best = c)
    (h : c.target ≠ []) : c.target ∈ plan.targetConcepts.keys ∧ p.uses c.target = false := by
  subst hc
  rcases target_foldl_better profile (plan.targetConcepts.filter fun c => !p.uses c.1) best with
    he | hmem
  · exact absurd (he.trans hbest) h
  · obtain ⟨e, hfilter, he⟩ := List.mem_map.1 hmem
    obtain ⟨hconcept, hfree⟩ := List.mem_filter.1 hfilter
    rw [← he]
    exact ⟨List.mem_map_of_mem hconcept, by simpa using hfree⟩

/-- A candidate with a name is a target concept that is free. -/
theorem candidate_free {c : Candidate} (hc : plan.candidate p concept = c) (h : c.target ≠ []) :
    c.target ∈ plan.targetConcepts.keys ∧ p.uses c.target = false := by
  unfold candidate at hc
  cases hm : plan.established? p concept with
  | none =>
    rw [hm] at hc
    exact free_foldl_better rfl hc h
  | some m =>
    rw [hm] at hc
    dsimp only at hc
    split at hc
    · rename_i hempty
      exact free_foldl_better (List.isEmpty_iff.1 hempty) hc h
    · have hfound := List.find?_some hm
      simp only [Bool.and_eq_true, Bool.not_eq_true'] at hfound
      rw [← hc]
      exact ⟨Dict.contains_iff.1 hfound.1.2, hfound.2⟩

/-- Every target concept is the partner of one concept at most. -/
theorem nodup_targets (plan : TransferPlan) (concepts : List Text) :
    ((plan.pairing concepts).pairs.map (·.target)).Nodup := by
  induction concepts using List.reverseRecOn with
  | nil => exact List.nodup_nil
  | append_singleton concepts concept ih =>
    rw [pairing_concat]
    rcases plan.step_cases (plan.pairing concepts) concept with
      ⟨target, s, hcand, htarget, -, hstep⟩ | hstep <;> rw [hstep]
    · have hfree := (candidate_free hcand htarget).2
      rw [Pairing.uses, List.any_eq_false] at hfree
      rw [List.map_append, List.map_singleton, ← List.concat_eq_append, List.nodup_concat]
      refine ⟨fun hmem => ?_, ih⟩
      obtain ⟨pair, hpair, he⟩ := List.mem_map.1 hmem
      exact hfree pair hpair (beq_iff_eq.2 he)
    · exact ih

end TransferPlan

/-! ## New names -/

namespace Pairing

variable {p : Pairing}

/-- Concepts with the same partner are the same. -/
theorem eq_of_get?_targets (h : (p.pairs.map (·.target)).Nodup) {concept concept' target : Text}
    (hc : Dict.get? p.targets concept = some target)
    (hc' : Dict.get? p.targets concept' = some target) : concept = concept' := by
  rw [get?_targets, Option.map_eq_some_iff] at hc hc'
  obtain ⟨pair, hpair, htarget⟩ := hc
  obtain ⟨pair', hpair', htarget'⟩ := hc'
  have hsame : pair = pair' := List.inj_on_of_nodup_map h
    (List.mem_reverse.1 (List.mem_of_find?_eq_some hpair))
    (List.mem_reverse.1 (List.mem_of_find?_eq_some hpair')) (htarget.trans htarget'.symm)
  have hconcept : pair.concept = concept := by simpa using List.find?_some hpair
  have hconcept' : pair'.concept = concept' := by simpa using List.find?_some hpair'
  rw [← hconcept, ← hconcept', hsame]

end Pairing

namespace Transfer

variable {names : Dict Text} {ks : List Text}

/-- Keys that are renamed one by one get different names if and only if no key that stays as it is
    has the new name of another one. -/
theorem nodup_renamed_iff (hks : ks.Nodup) (hnames : ∀ k l t, Dict.get? names k = some t →
    Dict.get? names l = some t → k = l) :
    (ks.map (renamed names)).Nodup ↔
      ∀ k ∈ ks, Dict.get? names k = none → ∀ l ∈ ks, Dict.get? names l ≠ some k := by
  rw [List.nodup_map_iff_inj_on hks]
  constructor
  · intro hinj k hk hnone l hl hlk
    have hkl : k = l := hinj k hk l hl (by rw [renamed, hnone, renamed, hlk]; rfl)
    rw [hkl, hlk] at hnone
    cases hnone
  · intro h k hk l hl he
    unfold renamed at he
    cases hkn : Dict.get? names k with
    | none =>
      cases hln : Dict.get? names l with
      | none => simpa [hkn, hln] using he
      | some t =>
        rw [hkn, hln, Option.getD_none, Option.getD_some] at he
        exact absurd (he ▸ hln) (h k hk hkn l hl)
    | some t =>
      cases hln : Dict.get? names l with
      | none =>
        rw [hkn, hln, Option.getD_none, Option.getD_some] at he
        exact absurd (he ▸ hkn) (h l hl hln k hk)
      | some u =>
        rw [hkn, hln, Option.getD_some, Option.getD_some] at he
        exact hnames k l u (he ▸ hkn) hln

variable {r : Registry} {c : Config} {source target : Domain} {fromName toName : Text}
  {knowledge : Json} {ms : Dict Json}

/-- The concept map of a transfer between domains is one to one. -/
theorem eq_of_get?_conceptMap (h : Feasible r fromName toName knowledge source target)
    {concept concept' partner : Text}
    (hc : Dict.get? (Transfer.of r c fromName toName knowledge).conceptMap concept = some partner)
    (hc' : Dict.get? (Transfer.of r c fromName toName knowledge).conceptMap concept' =
      some partner) : concept = concept' := by
  rw [of_eq_ofPairing h] at hc hc'
  exact Pairing.eq_of_get?_targets (TransferPlan.nodup_targets _ _) hc hc'

theorem transferred_of (h : Feasible r fromName toName knowledge source target) :
    (Transfer.of r c fromName toName knowledge).transferred =
      knowledge.rename (Transfer.of r c fromName toName knowledge).conceptMap := by
  rw [of_eq_ofPairing h]
  rfl

/-- **What is lost of an object.**  The object that a transfer makes of another one has as many
    members, each with its value under its new name, if and only if no key that has no partner is
    itself the partner of another key. -/
theorem of_object_keeps_iff (hms : ms.Sorted)
    (h : Feasible r fromName toName (.object ms) source target) :
    let t := Transfer.of r c fromName toName (.object ms)
    ∃ ns : Dict Json, t.transferred = .object ns ∧ ns.Sorted ∧
      ((ns.length = ms.length ∧ ∀ k v, ms.get? k = some v →
          ns.get? (renamed t.conceptMap k) = some v) ↔
        ∀ k ∈ ms.keys, t.conceptMap.get? k = none →
          ∀ l ∈ ms.keys, t.conceptMap.get? l ≠ some k) := by
  intro t
  have hkeys : (ms.map fun m => (renamed t.conceptMap m.1, m.2)).map (·.1) =
      ms.keys.map (renamed t.conceptMap) := by
    rw [List.map_map, Dict.keys, List.map_map]
    rfl
  have hlength := (Dict.length_ofList (ms.map fun m => (renamed t.conceptMap m.1, m.2))).2
  rw [List.length_map, hkeys] at hlength
  refine ⟨_, transferred_of h, Dict.sorted_ofList _, ?_⟩
  rw [← nodup_renamed_iff hms.nodup_keys fun k l p hk hl => eq_of_get?_conceptMap h hk hl,
    ← hlength]
  refine and_iff_left_of_imp fun hnone k v hk => Dict.get?_ofList_of_nodup ?_ ?_
  · rw [hkeys]
    exact hlength.1 hnone
  · exact List.mem_map_of_mem (f := fun m => (renamed t.conceptMap m.1, m.2)) (hms.mem_iff.2 hk)

/-- What biology says of adaptation and immunity is all there in technology, and so is the weather,
    which keeps its name. -/
theorem of_object_keeps_adaptation :
    let ms : Dict Json := [(Text.ofString "adaptation", .ofText "feedback driven change"),
      (Text.ofString "immunity", .ofText "learned defence"),
      (Text.ofString "weather", .ofText "rain")]
    let t := Transfer.of .seeded {} "biology" "technology" (.object ms)
    ms.Sorted ∧
      (∃ source target, Feasible .seeded "biology" "technology" (.object ms) source target) ∧
      t.conceptMap.keys = Text.ofStrings ["adaptation", "immunity"] ∧
      ∃ ns : Dict Json, t.transferred = .object ns ∧ ns.length = 3 ∧
        ∀ k v, ms.get? k = some v → ns.get? (renamed t.conceptMap k) = some v := by
  intro ms t
  have hms : ms.Sorted := by unfold Dict.Sorted; decide
  obtain ⟨source, hsource⟩ := Option.isSome_iff_exists.1
    (show (Registry.seeded.domain? (Domain.lookupName "biology")).isSome by decide +kernel)
  obtain ⟨target, htarget⟩ := Option.isSome_iff_exists.1
    (show (Registry.seeded.domain? (Domain.lookupName "technology")).isSome by decide +kernel)
  have hfeasible : Feasible .seeded "biology" "technology" (.object ms) source target :=
    ⟨hsource, htarget, by decide⟩
  have hmap : t.conceptMap.keys = Text.ofStrings ["adaptation", "immunity"] := by decide +kernel
  have hfree : ∀ k ∈ ms.keys, t.conceptMap.get? k = none →
      ∀ l ∈ ms.keys, t.conceptMap.get? l ≠ some k := by decide +kernel
  obtain ⟨ns, hns, -, hkeeps⟩ := of_object_keeps_iff (c := {}) hms hfeasible
  obtain ⟨hlength, hmembers⟩ := hkeeps.2 hfree
  exact ⟨hms, ⟨source, target, hfeasible⟩, hmap, ns, hns, hlength, hmembers⟩

/-- A member that keeps its name takes the place of one that is renamed to it. -/
theorem of_object_loses_archive :
    let ms : Dict Json := [(Text.ofString "archive", .ofText "memory storage optimization"),
      (Text.ofString "cache", .ofText "kept")]
    let t := Transfer.of .seeded {} "biology" "technology" (.object ms)
    Registry.seeded.Reachable ∧ ms.Sorted ∧ t.success ∧
      t.conceptMap = [(Text.ofString "archive", Text.ofString "cache")] ∧
      t.transferred.members.length = 1 ∧
      (t.transferred.member? "cache").bind Json.text? = some (Text.ofString "kept") := by
  intro ms t
  refine ⟨Registry.reachable_seeded, by unfold Dict.Sorted; decide, ?_⟩
  decide +kernel

end Transfer

end Reasoning
