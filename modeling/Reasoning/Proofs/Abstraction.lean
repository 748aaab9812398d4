/-
  The features that several domains share.

  A feature is carried by the touched concepts of a domain that have it as a property or belong to
  the pattern of that name.  What touches a concept is told by its own name, who carries a feature
  by the name that the concept is found by.  The carriers are gathered in a table by domain, and
  what at least two domains carry is an abstraction.

  * `Abstraction.Touches`, `Abstraction.Carries`, `Abstraction.Shares`: which concepts of a domain
    carry a feature, and which domains of a request do;
  * `Abstraction.mem_byDomain`, `Abstraction.two_le_length_byDomain`: who is in the table of a
    feature, and when there are two;
  * `Abstraction.Gathers`: the domains and concepts of an abstraction are those that carry it;
  * `AbstractionSearch.of_shares`: the abstractions are what at least two domains share.
-/
import Mathlib.Data.Finset.Card
import Reasoning.Proofs.Bounds
import Reasoning.Proofs.Dict
import Reasoning.Proofs.Ranking
import Reasoning.Proofs.Resolution
import Reasoning.Proofs.Text

namespace Reasoning

theorem Text.mem_union {ts more : List Text} {t : Text} :
    t ∈ Text.union ts more ↔ t ∈ ts ∨ t ∈ more := by
  unfold Text.union
  induction more generalizing ts with
  | nil => simp
  | cons u more ih =>
    rw [List.foldl_cons, ih]
    split
    · rename_i hu
      have hu : u ∈ ts := List.contains_iff_mem.1 hu
      grind
    · grind

theorem Concept.mem_features {c : Concept} {feature : Text} :
    feature ∈ c.features ↔ feature ∈ c.name.words ∨ feature ∈ c.properties := Text.mem_union

namespace Abstraction

variable {r : Registry} {concepts names terms : List Text} {d : Domain} {ds : List Domain}
  {e : Text × Concept} {feature name t : Text}

/-! ## Carriers of a feature -/

/-- A word of `concepts` is related to a word of the concept's own name or to one of its properties;
    without words this is so of every concept. -/
def Touches (concepts : List Text) (c : Concept) : Prop :=
  (∀ t ∈ concepts, t.words = []) ∨
    ∃ t ∈ concepts, ∃ w ∈ t.words, ∃ feature, (feature ∈ c.name.words ∨ feature ∈ c.properties) ∧
      w.isRelated feature

/-- The domain has a touched concept under that name that has the feature as a property or belongs
    to the pattern of the feature. -/
def Carries (concepts : List Text) (d : Domain) (feature name : Text) : Prop :=
  ∃ c, (name, c) ∈ d.concepts ∧ Touches concepts c ∧
    (feature ∈ c.properties ∨
      ∃ members, d.patterns.get? feature = some members ∧ name ∈ members)

/-- A domain that the request is about carries the feature. -/
def Shares (r : Registry) (concepts names : List Text) (feature : Text) (d : Domain) : Prop :=
  r.Selects names d ∧ ∃ name, Carries concepts d feature name

theorem mem_termsOf : t ∈ termsOf concepts ↔ ∃ s ∈ concepts, t ∈ s.words := by
  unfold termsOf
  rw [Text.mem_distinct, List.mem_flatMap]

theorem termsOf_eq_nil_iff : termsOf concepts = [] ↔ ∀ s ∈ concepts, s.words = [] := by
  simp only [List.eq_nil_iff_forall_not_mem, mem_termsOf]
  exact ⟨fun h s hs t ht => h t ⟨s, hs, ht⟩, fun h t ⟨s, hs, ht⟩ => h s hs t ht⟩

theorem mem_touched :
    e ∈ touched d (termsOf concepts) ↔ e ∈ d.concepts ∧ Touches concepts e.2 := by
  unfold touched Touches
  split
  · rename_i hempty
    have hnone := termsOf_eq_nil_iff.1 (List.isEmpty_iff.1 hempty)
    exact ⟨fun h => ⟨h, .inl hnone⟩, And.left⟩
  · rename_i hempty
    rw [List.isEmpty_iff, termsOf_eq_nil_iff] at hempty
    unfold Domain.touched Text.anyRelated Text.hasRelated
    simp only [List.mem_filter, List.any_eq_true, mem_termsOf, Concept.mem_features, hempty,
      false_or, and_congr_right_iff]
    exact fun _ => ⟨fun ⟨w, ⟨s, hs, hw⟩, h⟩ => ⟨s, hs, w, hw, h⟩,
      fun ⟨s, hs, w, hw, h⟩ => ⟨w, ⟨s, hs, hw⟩, h⟩⟩

theorem mem_carriers :
    name ∈ carriers d (touched d (termsOf concepts)) feature ↔ Carries concepts d feature name := by
  unfold carriers Carries Dict.keys
  simp only [List.mem_append, List.mem_filter, List.mem_map, List.contains_iff_mem, mem_touched]
  constructor
  · rintro (⟨⟨n, c⟩, ⟨⟨hc, ht⟩, hf⟩, rfl⟩ | ⟨hmember, ⟨n, c⟩, ⟨hc, ht⟩, rfl⟩)
    · exact ⟨c, hc, ht, .inl hf⟩
    · cases hpattern : d.patterns.get? feature with
      | none =>
        rw [hpattern] at hmember
        cases hmember
      | some members =>
        rw [hpattern] at hmember
        exact ⟨c, hc, ht, .inr ⟨members, rfl, hmember⟩⟩
  · rintro ⟨c, hc, ht, hf | ⟨members, hpattern, hmember⟩⟩
    · exact .inl ⟨_, ⟨⟨hc, ht⟩, hf⟩, rfl⟩
    · rw [hpattern]
      exact .inr ⟨hmember, _, ⟨hc, ht⟩, rfl⟩

/-- A feature that is carried is looked for. -/
theorem Carries.mem_candidates (h : Carries concepts d feature name) (hd : d ∈ ds) :
    feature ∈ candidates ds (termsOf concepts) := by
  obtain ⟨c, hc, ht, hf⟩ := h
  refine Dict.mem_sorted.2 (List.mem_flatMap.2 ⟨d, hd, List.mem_append.2 ?_⟩)
  rcases hf with hf | ⟨members, hpattern, -⟩
  · exact .inl (List.mem_flatMap.2 ⟨_, mem_touched.2 ⟨hc, ht⟩, hf⟩)
  · refine .inr (Dict.contains_iff.1 ?_)
    rw [Dict.contains, hpattern]
    rfl

/-! ## The carriers by domain -/

/-- The entry of a domain in the table of a feature, if it carries the feature. -/
def share? (terms : List Text) (feature : Text) (d : Domain) : Option (Text × List Text) :=
  match carriers d (touched d terms) feature with
  | [] => none
  | cs => some (d.name, cs)

theorem share?_eq_some_iff {e : Text × List Text} : share? terms feature d = some e ↔
    e = (d.name, carriers d (touched d terms) feature) ∧ e.2 ≠ [] := by
  unfold share?
  split
  · rename_i hnone
    rw [hnone]
    exact ⟨nofun, fun ⟨he, hne⟩ => absurd (congrArg Prod.snd he) hne⟩
  · rename_i hsome
    rw [Option.some.injEq, eq_comm]
    refine ⟨fun he => ⟨he, ?_⟩, And.left⟩
    rw [he]
    exact hsome

theorem nodup_entries (h : (ds.map (·.name)).Nodup) :
    ((ds.filterMap (share? terms feature)).map (·.1)).Nodup := by
  refine List.pairwise_map.2 ((List.pairwise_map.1 h).filterMap _ fun d d' hne e he e' he' => ?_)
  rw [(share?_eq_some_iff.1 he).1, (share?_eq_some_iff.1 he').1]
  exact hne

/-- The table of a feature has the domains that carry it, with their carriers. -/
theorem mem_byDomain (h : (ds.map (·.name)).Nodup) {e : Text × List Text} :
    e ∈ byDomain ds terms feature ↔
      ∃ d ∈ ds, e = (d.name, carriers d (touched d terms) feature) ∧ e.2 ≠ [] := by
  show e ∈ Dict.ofList (ds.filterMap (share? terms feature)) ↔ _
  rw [Dict.mem_ofList (nodup_entries h), List.mem_filterMap]
  simp only [share?_eq_some_iff]

theorem mem_keys_byDomain (h : (ds.map (·.name)).Nodup) {n : Text} :
    n ∈ Dict.keys (byDomain ds (termsOf concepts) feature) ↔
      ∃ d ∈ ds, (∃ name, Carries concepts d feature name) ∧ d.name = n := by
  unfold Dict.keys
  simp only [List.mem_map, mem_byDomain h, ← mem_carriers]
  constructor
  · rintro ⟨e, ⟨d, hd, rfl, hne⟩, rfl⟩
    exact ⟨d, hd, List.exists_mem_of_ne_nil _ hne, rfl⟩
  · rintro ⟨d, hd, ⟨name, hname⟩, rfl⟩
    exact ⟨_, ⟨d, hd, rfl, List.ne_nil_of_mem hname⟩, rfl⟩

/-- A feature is shared if there are two domains that carry it. -/
theorem two_le_length_byDomain (h : (ds.map (·.name)).Nodup) :
    2 ≤ (byDomain ds (termsOf concepts) feature).length ↔
      ∃ d ∈ ds, ∃ e ∈ ds, d ≠ e ∧ (∃ name, Carries concepts d feature name) ∧
        ∃ name, Carries concepts e feature name := by
  have hnodup : (Dict.keys (byDomain ds (termsOf concepts) feature)).Nodup :=
    (Dict.sorted_ofList _).nodup_keys
  have hlength : (byDomain ds (termsOf concepts) feature).length =
      (Dict.keys (byDomain ds (termsOf concepts) feature)).toFinset.card := by
    rw [List.toFinset_card_of_nodup hnodup, Dict.keys, List.length_map]
  rw [hlength, Nat.succ_le_iff, Finset.one_lt_card]
  simp only [List.mem_toFinset, mem_keys_byDomain h]
  constructor
  · rintro ⟨_, ⟨d, hd, hcd, rfl⟩, _, ⟨e, he, hce, rfl⟩, hne⟩
    exact ⟨d, hd, e, he, fun heq => hne (congrArg _ heq), hcd, hce⟩
  · rintro ⟨d, hd, e, he, hne, hcd, hce⟩
    exact ⟨_, ⟨d, hd, hcd, rfl⟩, _, ⟨e, he, hce, rfl⟩,
      fun heq => hne (List.inj_on_of_nodup_map h hd he heq)⟩

/-! ## The abstraction of a feature -/

/-- The parts of an abstraction that tell whose it is. -/
theorem parts_of_of? {a : Abstraction} (h : of? ds terms feature = some a) :
    a.pattern = feature ∧ a.domains = Dict.keys (byDomain ds terms feature) ∧
      a.concepts = Text.distinct ((byDomain ds terms feature).flatMap fun e =>
        e.2.map fun concept => e.1 ++ Text.ofString ":" ++ concept) := by
  unfold of? at h
  dsimp only at h
  split at h
  · cases h
  · cases h
    exact ⟨rfl, rfl, rfl⟩

theorem pattern_of_of? {a : Abstraction} (h : of? ds terms feature = some a) :
    a.pattern = feature := (parts_of_of? h).1

theorem isSome_of? : (of? ds terms feature).isSome ↔ 2 ≤ (byDomain ds terms feature).length := by
  unfold of?
  dsimp only
  split <;> simp <;> omega

/-- The domains and concepts of an abstraction of a request are those that carry it, each once. -/
structure Gathers (r : Registry) (concepts names : List Text) (a : Abstraction) : Prop where
  domains : ∀ n, n ∈ a.domains ↔ ∃ d, Shares r concepts names a.pattern d ∧ d.name = n
  domains_once : a.domains.Nodup
  concepts : ∀ t, t ∈ a.concepts ↔
    ∃ d name, r.Selects names d ∧ Carries concepts d a.pattern name ∧
      d.name ++ Text.ofString ":" ++ name = t
  concepts_once : a.concepts.Nodup

theorem gathers_of? (h : r.Consistent) {a : Abstraction}
    (ha : of? (r.namedDomains names) (termsOf concepts) feature = some a) :
    a.Gathers r concepts names := by
  have hnodup := Registry.nodup_namedDomains h names
  obtain ⟨hpattern, hdomains, hconcepts⟩ := parts_of_of? ha
  refine ⟨fun n => ?_, ?_, fun t => ?_, ?_⟩
  · rw [hdomains, mem_keys_byDomain hnodup, hpattern]
    simp only [Registry.mem_namedDomains h, Shares, and_assoc]
  · rw [hdomains]
    exact (Dict.sorted_ofList _).nodup_keys
  · rw [hconcepts, Text.mem_distinct, List.mem_flatMap, hpattern]
    simp only [List.mem_map, mem_byDomain hnodup, Registry.mem_namedDomains h, ← mem_carriers]
    constructor
    · rintro ⟨_, ⟨d, hd, rfl, -⟩, name, hname, rfl⟩
      exact ⟨d, name, hd, hname, rfl⟩
    · rintro ⟨d, name, hd, hname, rfl⟩
      exact ⟨_, ⟨d, hd, rfl, List.ne_nil_of_mem hname⟩, name, hname, rfl⟩
  · rw [hconcepts]
    exact Text.nodup_distinct _

end Abstraction

namespace AbstractionSearch

open Abstraction (Shares)

variable {r : Registry} {concepts names : List Text}

/-- The abstractions before they are ranked come in the order of their features. -/
theorem pairwise_candidates (ds : List Domain) (terms : List Text) :
    ((Abstraction.candidates ds terms).filterMap (Abstraction.of? ds terms)).Pairwise
      fun a b => a.pattern.before b.pattern := by
  refine (Dict.pairwise_sorted _).filterMap _ fun feature feature' hbefore a ha b hb => ?_
  rw [Abstraction.pattern_of_of? ha, Abstraction.pattern_of_of? hb]
  exact hbefore

theorem mem_found {a : Abstraction} (ha : a ∈ (of r concepts names).found) :
    Abstraction.of? (r.namedDomains names) (Abstraction.termsOf concepts) a.pattern = some a := by
  obtain ⟨feature, -, ha⟩ := List.mem_filterMap.1 (List.mem_mergeSort.1 ha)
  rwa [Abstraction.pattern_of_of? ha]

/-- **What domains share is what is found.**  A feature that at least two of the selected domains
    carry is an abstraction, and nothing else is.  It has the domains and the concepts that carry
    it, no feature is found twice, and the most confident come first, then those whose bytes come
    first. -/
theorem of_shares (hr : r.Reachable) (concepts names : List Text) :
    let found := (of r concepts names).found
    (∀ feature, (∃ a ∈ found, a.pattern = feature) ↔
      ∃ d e, d ≠ e ∧ Shares r concepts names feature d ∧ Shares r concepts names feature e) ∧
    (∀ a ∈ found, a.Gathers r concepts names) ∧
    (found.map (·.pattern)).Nodup ∧ Ranked (·.confidence) (·.pattern) found := by
  intro found
  have h := hr.consistent
  have hnodup := Registry.nodup_namedDomains h names
  have hsorted := pairwise_candidates (r.namedDomains names) (Abstraction.termsOf concepts)
  refine ⟨fun feature => ?_, fun a ha => Abstraction.gathers_of? h (mem_found ha), ?_, ?_⟩
  · constructor
    · rintro ⟨a, ha, rfl⟩
      have hsome := Abstraction.isSome_of?.1 (Option.isSome_of_eq_some (mem_found ha))
      obtain ⟨d, hd, e, he, hne, hcd, hce⟩ :=
        (Abstraction.two_le_length_byDomain hnodup).1 hsome
      exact ⟨d, e, hne, ⟨(Registry.mem_namedDomains h).1 hd, hcd⟩,
        (Registry.mem_namedDomains h).1 he, hce⟩
    · rintro ⟨d, e, hne, ⟨hd, name, hname⟩, he, hce⟩
      rw [← Registry.mem_namedDomains h] at hd he
      have htwo := (Abstraction.two_le_length_byDomain hnodup).2
        ⟨d, hd, e, he, hne, ⟨name, hname⟩, hce⟩
      obtain ⟨a, ha⟩ := Option.isSome_iff_exists.1 (Abstraction.isSome_of?.2 htwo)
      have hcandidate := hname.mem_candidates hd
      exact ⟨a, List.mem_mergeSort.2 (List.mem_filterMap.2 ⟨feature, hcandidate, ha⟩),
        Abstraction.pattern_of_of? ha⟩
  · exact StableSort.nodup_mergeSort hsorted
  · refine ranked_mergeSort (fun a ha => ?_) hsorted
    have hscore : a.confidence ∈ (of r concepts names).scores :=
      List.mem_map.2 ⟨a, List.mem_mergeSort.2 ha, rfl⟩
    exact (isScore_of_mem_scores hscore).isNaN

/-- Homeostasis and control loops have to do with feedback, and have balance in common. -/
theorem of_shares_balance :
    let r := Registry.seeded
    let concepts := Text.ofStrings ["feedback loops"]
    let names := Text.ofStrings ["Technology", "biology"]
    r.Reachable ∧ ∃ a ∈ (of r concepts names).found, a.pattern = Text.ofString "balance" ∧
      Text.ofString "biology:homeostasis" ∈ a.concepts ∧
      Text.ofString "technology:control loop" ∈ a.concepts := by
  intro r concepts names
  have hr : r.Reachable := Registry.reachable_seeded
  have hfound : (names.filterMap fun name => r.domain? (Domain.lookupName name)) =
      [Registry.Seed.technology, Registry.Seed.biology] := by decide +kernel
  have hselects (d : Domain) (hd : d ∈ [Registry.Seed.technology, Registry.Seed.biology]) :
      r.Selects names d := by
    unfold Registry.Selects
    rw [if_neg (by decide), Registry.denotes_iff_mem, hfound]
    exact hd
  have hbiology := hselects Registry.Seed.biology (by simp)
  have htechnology := hselects Registry.Seed.technology (by simp)
  have hhomeostasis : Abstraction.Carries concepts Registry.Seed.biology "balance" "homeostasis" :=
    Abstraction.mem_carriers.1 (by decide +kernel)
  have hloop : Abstraction.Carries concepts Registry.Seed.technology "balance" "control loop" :=
    Abstraction.mem_carriers.1 (by decide +kernel)
  obtain ⟨hshared, hgathers, -, -⟩ := of_shares hr concepts names
  obtain ⟨a, ha, hpattern⟩ := (hshared "balance").2
    ⟨_, _, by decide +kernel, ⟨hbiology, _, hhomeostasis⟩, htechnology, _, hloop⟩
  have hconcepts := (hgathers a ha).concepts
  rw [hpattern] at hconcepts
  exact ⟨hr, a, ha, hpattern, (hconcepts _).2 ⟨_, _, hbiology, hhomeostasis, rfl⟩,
    (hconcepts _).2 ⟨_, _, htechnology, hloop, rfl⟩⟩

end AbstractionSearch

end Reasoning
