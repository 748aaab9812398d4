/-
  What several domains have in common, and what is found of each of them.

  The domains come in the order in which a request lists them.  What they share does not depend on
  this order, and what is found of a domain depends on the others only through what they share.

  * `UnifiedSolution.shared_eq`, `UnifiedSolution.shared_perm`: the common patterns, whatever the
    order of the solutions;
  * `CrossDomainSolution.Unifies`: the common patterns, how they are ordered and who carries them;
  * `CrossDomainSolution.finds_iff`: what is found of each domain that a request names;
  * `CrossDomainSolution.of_relisted`: all this is the same for every list of the same domains.
-/
import Reasoning.Proofs.Dict
import Reasoning.Proofs.Ranking
import Reasoning.Proofs.Resolution

namespace Reasoning

/-! ## Common patterns -/

namespace UnifiedSolution

variable {ss ss' : List DomainSolution} {p : Text}

/-- The texts of some solutions that are carried by at least two, sorted by the number of
    carriers. -/
theorem shared_eq (ss : List DomainSolution) :
    shared ss = ((Dict.sorted (ss.flatMap (·.patterns))).filter fun p =>
        2 ≤ (carriers ss p).length).mergeSort
      (StableSort.descending fun p => (carriers ss p).length) := by
  unfold shared
  dsimp only
  rw [List.map_mergeSort (s := StableSort.descending fun p => (carriers ss p).length)]
  · rw [List.filter_map, List.map_map]
    exact congrArg (List.mergeSort · _) (List.map_id _)
  · intro a ha b hb
    obtain ⟨p, -, rfl⟩ := List.mem_map.1 (List.mem_filter.1 ha).1
    obtain ⟨q, -, rfl⟩ := List.mem_map.1 (List.mem_filter.1 hb).1
    rfl

theorem mem_carriers {s : DomainSolution} : s ∈ carriers ss p ↔ s ∈ ss ∧ p ∈ s.patterns := by
  rw [carriers, List.mem_filter, List.contains_iff_mem]

theorem mem_shared : p ∈ shared ss ↔ 2 ≤ (carriers ss p).length := by
  rw [shared_eq, List.mem_mergeSort, List.mem_filter, decide_eq_true_eq, Dict.mem_sorted,
    and_iff_right_iff_imp]
  intro hcarried
  obtain ⟨s, hs⟩ := List.exists_mem_of_length_pos (Nat.zero_lt_of_lt hcarried)
  obtain ⟨hs, hp⟩ := mem_carriers.1 hs
  exact List.mem_flatMap.2 ⟨s, hs, hp⟩

/-- The most widely carried patterns come first, and equally carried ones by their bytes. -/
theorem pairwise_shared (ss : List DomainSolution) :
    (shared ss).Pairwise fun p q => (carriers ss q).length < (carriers ss p).length ∨
      (carriers ss p).length = (carriers ss q).length ∧ p.before q := by
  rw [shared_eq]
  exact StableSort.pairwise_mergeSort id (fun _ _ _ _ => rfl)
    ((Dict.pairwise_sorted _).sublist List.filter_sublist)

theorem shared_nil : shared [] = [] := by
  rw [shared_eq]
  exact List.mergeSort_nil

theorem length_carriers_perm (h : ss.Perm ss') (p : Text) :
    (carriers ss p).length = (carriers ss' p).length :=
  (h.filter _).length_eq

/-- What solutions share does not depend on their order. -/
theorem shared_perm (h : ss.Perm ss') : shared ss = shared ss' := by
  have hcount : (fun p => (carriers ss p).length) = fun p => (carriers ss' p).length :=
    funext (length_carriers_perm h)
  have hsorted : Dict.sorted (ss.flatMap (·.patterns)) = Dict.sorted (ss'.flatMap (·.patterns)) :=
    Dict.sorted_congr fun p => (h.flatMap_right _).mem_iff
  rw [shared_eq, shared_eq, hsorted, hcount]
  simp only [length_carriers_perm h]

end UnifiedSolution

namespace CrossDomainSolution

open UnifiedSolution (carriers)

variable {r : Registry} {c : Config} {problem : Text} {names names' : List Text}

/-- The common patterns are those that at least two solutions carry, the most widely carried
    first, then by bytes, and the insight into each names its carriers. -/
structure Unifies (s : CrossDomainSolution) : Prop where
  shared : ∀ p, p ∈ s.unified.commonPatterns ↔
    2 ≤ s.solutions.countP fun t => p ∈ t.patterns
  ordered : s.unified.commonPatterns.Pairwise fun p q =>
    let carried (p : Text) := s.solutions.countP fun t => p ∈ t.patterns
    carried q < carried p ∨ carried p = carried q ∧ p.before q
  insights : ∀ i : Nat, s.unified.insights[i]? = s.unified.commonPatterns[i]?.map fun p =>
    Text.ofString "'" ++ p ++ Text.ofString "' appears in " ++
      Text.join ", " ((s.solutions.filter fun t => p ∈ t.patterns).map (·.domain))

theorem commonPatterns_of (r : Registry) (c : Config) (problem : Text) (names : List Text) :
    (of r c problem names).unified.commonPatterns =
      UnifiedSolution.shared (of r c problem names).solutions := by
  unfold of
  dsimp only
  split
  · rename_i hempty
    rw [List.isEmpty_iff.1 hempty]
    exact UnifiedSolution.shared_nil.symm
  · rfl

theorem insights_of (r : Registry) (c : Config) (problem : Text) (names : List Text) :
    (of r c problem names).unified.insights =
      (of r c problem names).unified.commonPatterns.map fun p =>
        Text.ofString "'" ++ p ++ Text.ofString "' appears in " ++
          Text.join ", " ((carriers (of r c problem names).solutions p).map (·.domain)) := by
  unfold of
  dsimp only
  split <;> rfl

theorem unifies_of (r : Registry) (c : Config) (problem : Text) (names : List Text) :
    (of r c problem names).Unifies := by
  have hcarriers (p : Text) : ((of r c problem names).solutions.filter fun t => p ∈ t.patterns) =
      carriers (of r c problem names).solutions p := by
    unfold carriers
    simp
  refine ⟨fun p => ?_, ?_, fun i => ?_⟩
  · rw [List.countP_eq_length_filter, hcarriers, commonPatterns_of, UnifiedSolution.mem_shared]
  · simp only [List.countP_eq_length_filter, hcarriers]
    rw [commonPatterns_of]
    exact UnifiedSolution.pairwise_shared _
  · simp only [hcarriers]
    rw [insights_of, List.getElem?_map]

/-! ## What is found of a domain -/

/-- What is found of a domain: how much the problem has to do with it, its solution, and whether
    that carries enough of what the others share. -/
@[ext]
structure Finding where
  relevance : Single
  solution : DomainSolution
  validation : DomainValidation

/-- This is found of the domain of that name. -/
def Finds (s : CrossDomainSolution) (name : Text) (f : Finding) : Prop :=
  ∃ i : Nat, s.domains[i]? = some name ∧ s.relevance.get? name = some f.relevance ∧
    s.solutions[i]? = some f.solution ∧ s.validations[i]? = some f.validation

/-- What is found of a domain when all solutions have some patterns in common. -/
def findingOf (d : Domain) (terms common : List Text) : Finding :=
  ⟨d.relevance terms, .of d terms, .of (.of d terms) common⟩

/-- A request with the name of a domain is solved in the domains that its names stand for. -/
theorem select_of_denotes (h : r.Consistent) (hne : ∃ d, r.Denotes names d) (terms : List Text) :
    select r c terms names =
      ⟨(r.resolveDomains names).domains, (r.resolveDomains names).unknown,
        relevanceOf (r.resolveDomains names).domains terms, false⟩ := by
  obtain ⟨d, hd⟩ := hne
  obtain ⟨name, hname, -⟩ := id hd
  have hnames : names.isEmpty = false := List.isEmpty_eq_false_iff.2 (List.ne_nil_of_mem hname)
  have hdomains : (r.resolveDomains names).domains.isEmpty = false :=
    List.isEmpty_eq_false_iff.2
      (List.ne_nil_of_mem ((Registry.mem_domains_resolveDomains h).2 hd))
  unfold select
  simp only [hnames, hdomains, Bool.false_eq_true, if_false]

theorem get?_relevanceOf {ds : List Domain} (hnodup : (ds.map (·.name)).Nodup) {d : Domain}
    (hd : d ∈ ds) (terms : List Text) :
    (relevanceOf ds terms).get? d.name = some (d.relevance terms) :=
  Dict.get?_ofList_of_nodup (by rwa [List.map_map]) (List.mem_map.2 ⟨d, hd, rfl⟩)

/-- What is found of each domain that a request names. -/
theorem finds_iff (h : r.Consistent) (hne : ∃ d, r.Denotes names d) {name : Text} {f : Finding} :
    (of r c problem names).Finds name f ↔ ∃ d, r.Denotes names d ∧ d.name = name ∧
      findingOf d problem.keywords (of r c problem names).unified.commonPatterns = f := by
  generalize hcommon : (of r c problem names).unified.commonPatterns = common
  have hnodup := Registry.nodup_resolveDomains h names
  have hmem (d : Domain) : d ∈ (r.resolveDomains names).domains ↔ r.Denotes names d :=
    Registry.mem_domains_resolveDomains h
  have hselect := select_of_denotes (c := c) h hne problem.keywords
  have hdomains : (of r c problem names).domains =
      (select r c problem.keywords names).domains.map (·.name) := rfl
  have hrelevance : (of r c problem names).relevance =
      (select r c problem.keywords names).relevance := rfl
  have hsolutions : (of r c problem names).solutions =
      (select r c problem.keywords names).domains.map fun d => .of d problem.keywords := rfl
  have hvalidations : (of r c problem names).validations =
      (of r c problem names).solutions.map fun t => .of t
        (of r c problem names).unified.commonPatterns := rfl
  rw [hselect] at hdomains hrelevance hsolutions
  unfold Finds
  rw [hvalidations, hdomains, hrelevance, hsolutions, hcommon]
  simp only [List.getElem?_map, Option.map_map, Function.comp_def]
  constructor
  · rintro ⟨i, hname, hx, ht, hv⟩
    obtain ⟨d, hd, rfl⟩ := Option.map_eq_some_iff.1 hname
    have hds := List.mem_of_getElem? hd
    rw [hd, Option.map_some, Option.some.injEq] at ht hv
    rw [get?_relevanceOf hnodup hds, Option.some.injEq] at hx
    refine ⟨d, (hmem d).1 hds, rfl, ?_⟩
    rw [findingOf, hx, hv, ht]
  · rintro ⟨d, hd, rfl, rfl⟩
    have hds := (hmem d).2 hd
    obtain ⟨i, hi⟩ := List.mem_iff_getElem?.1 hds
    refine ⟨i, ?_⟩
    simp only [hi, get?_relevanceOf hnodup hds, findingOf, Option.map_some, and_self]

/-- **A list of domains may be written in any way.**  What several domains have in common is what
    at least two of their solutions carry, the most widely carried first, and each insight names
    the carriers.  For lists of names about the same domains it is the same, and so is all that is
    found of each of the domains. -/
theorem of_relisted (hr : r.Reachable) (c : Config) (problem : Text) (names : List Text) :
    (of r c problem names).Unifies ∧
    ∀ names', (∃ d, r.Denotes names d) → (∀ d, r.Denotes names d ↔ r.Denotes names' d) →
      (of r c problem names).unified.commonPatterns =
        (of r c problem names').unified.commonPatterns ∧
      (∀ name f, (of r c problem names).Finds name f ↔ (of r c problem names').Finds name f) ∧
      ∀ d, r.Denotes names d → ∃! f, (of r c problem names).Finds d.name f := by
  refine ⟨unifies_of r c problem names, fun names' hne hsame => ?_⟩
  have h := hr.consistent
  have hne' : ∃ d, r.Denotes names' d := hne.imp fun d => (hsame d).1
  have hcommon : (of r c problem names).unified.commonPatterns =
      (of r c problem names').unified.commonPatterns := by
    rw [commonPatterns_of, commonPatterns_of]
    refine UnifiedSolution.shared_perm ?_
    show ((select r c problem.keywords names).domains.map _).Perm
      ((select r c problem.keywords names').domains.map _)
    rw [select_of_denotes h hne, select_of_denotes h hne']
    exact (Registry.resolveDomains_perm h hsame).map _
  refine ⟨hcommon, fun name f => ?_, fun d hd => ?_⟩
  · rw [finds_iff h hne, finds_iff h hne', hcommon]
    simp only [hsame]
  · refine ⟨_, (finds_iff h hne).2 ⟨d, hd, rfl, rfl⟩, fun f hf => ?_⟩
    obtain ⟨e, he, hname, rfl⟩ := (finds_iff h hne).1 hf
    rw [hr.consistent.eq_of_name_eq (he.mem_items h) (hd.mem_items h) hname]

/-- Biology and technology, listed the other way round, twice, in capitals and with space. -/
theorem of_relisted_twice :
    let r := Registry.seeded
    let names := Text.ofStrings ["biology", "technology"]
    let names' := Text.ofStrings [" Technology", "BIOLOGY", "alchemy", "technology"]
    let s := of r {} "How does a network evolve?" names
    let s' := of r {} "How does a network evolve?" names'
    r.Reachable ∧ (∃ d, r.Denotes names d) ∧ (∀ d, r.Denotes names d ↔ r.Denotes names' d) ∧
      s.unified.commonPatterns = s'.unified.commonPatterns ∧
      Text.ofString "network" ∈ s.unified.commonPatterns ∧
      ∃ f : Finding, s.Finds "biology" f ∧ s'.Finds "biology" f := by
  intro r names names' s s'
  have hr : r.Reachable := Registry.reachable_seeded
  have hfound : (names.filterMap fun name => r.domain? (Domain.lookupName name)) =
      [Registry.Seed.biology, Registry.Seed.technology] := by decide +kernel
  have hfound' : (names'.filterMap fun name => r.domain? (Domain.lookupName name)) =
      [Registry.Seed.technology, Registry.Seed.biology, Registry.Seed.technology] := by
    decide +kernel
  have hmem (d : Domain) : r.Denotes names d ↔
      d = Registry.Seed.biology ∨ d = Registry.Seed.technology := by
    rw [Registry.denotes_iff_mem, hfound]
    simp
  have hsame : ∀ d, r.Denotes names d ↔ r.Denotes names' d := by
    intro d
    rw [hmem, Registry.denotes_iff_mem, hfound']
    simpa using Or.inr
  have hbiology : r.Denotes names Registry.Seed.biology := (hmem _).2 (.inl rfl)
  obtain ⟨hunifies, hrelisted⟩ := of_relisted hr {} "How does a network evolve?" names
  obtain ⟨hcommon, hfinds, hone⟩ := hrelisted names' ⟨_, hbiology⟩ hsame
  have hcarried : 2 ≤ s.solutions.countP fun t => Text.ofString "network" ∈ t.patterns := by
    decide +kernel
  obtain ⟨f, hf, -⟩ := hone _ hbiology
  exact ⟨hr, ⟨_, hbiology⟩, hsame, hcommon, (hunifies.shared _).2 hcarried, f, hf,
    (hfinds _ f).1 hf⟩

end CrossDomainSolution

end Reasoning
