/-
  Answers across domains are whole symbols.

  * `CrossDomainSolution.printable_select`: the domains that a problem is seen from are registered;
  * `DomainSolution.allValid_of`, `UnifiedSolution.allValid_of`,
    `DomainValidation.allValid_issues_of`: what is said of them;
  * `CrossDomainSolution.printable_reason`: the answer of the engine.
-/
import Reasoning.Domain.Reason
import Reasoning.Proofs.Catalogue
import Reasoning.Proofs.Encoding

namespace Reasoning

open Text

/-! ## Selected domains -/

/-- The domains that names stand for are registered, and names that stand for none are texts that
    were given. -/
theorem Registry.printable_resolveDomains {r : Registry} (hr : r.Printable) {names : List Text}
    (hn : AllValid names) :
    (∀ d ∈ (r.resolveDomains names).domains, AllValid d.texts) ∧
      AllValid (r.resolveDomains names).unknown := by
  unfold resolveDomains
  refine List.foldlRecOn names _
    (motive := fun found : Resolved => (∀ d ∈ found.domains, AllValid d.texts) ∧
      AllValid found.unknown) ⟨List.forall_mem_nil _, allValid_nil⟩ fun found hfound raw hraw => ?_
  dsimp only
  split
  · exact hfound
  · split
    · rename_i d hd
      exact ⟨List.forall_mem_append.2 ⟨hfound.1, List.forall_mem_singleton.2
        (hr.domains d (Catalogue.mem_items_of_find? hd))⟩, hfound.2⟩
    · exact ⟨hfound.1, by simp [hfound.2, Domain.lookupName, (hn raw hraw).trim.lower]⟩

namespace CrossDomainSolution

theorem printable_select {r : Registry} (hr : r.Printable) (c : Config) (terms : List Text)
    {names : List Text} (hn : AllValid names) :
    (∀ d ∈ (select r c terms names).domains, AllValid d.texts) ∧
      AllValid (select r c terms names).unknown ∧
      AllValid (Dict.keys (select r c terms names).relevance) := by
  have hfound := r.printable_resolveDomains hr hn
  have hcandidates : ∀ d ∈ (if names.isEmpty then r.domains.items
      else (r.resolveDomains names).domains), AllValid d.texts := by
    split
    · exact hr.domains
    · exact hfound.1
  unfold select
  dsimp only
  generalize (if names.isEmpty then r.domains.items else (r.resolveDomains names).domains) = ds
    at hcandidates ⊢
  refine ⟨?_, hfound.2, ?_⟩
  · have hselected : ∀ d ∈ (if names.isEmpty then
        ds.filter fun d => c.domainRelevanceThreshold < d.relevance terms else ds),
        AllValid d.texts := by
      split
      · exact fun d hd => hcandidates d (List.mem_filter.1 hd).1
      · exact hcandidates
    revert hselected
    generalize (if names.isEmpty then _ else ds) = selected
    intro hselected
    split
    · exact (r.printable_resolveDomains hr (allValid_ofStrings _)).1
    · exact hselected
  · have hnames : AllValid ((ds.map fun d => (d.name, d.relevance terms)).map (·.1)) := by
      rw [List.map_map]
      exact allValid_map.2 fun d hd => hcandidates d hd d.name (by simp [Domain.texts])
    exact hnames.of_subset (Dict.keys_ofList_subset _)

end CrossDomainSolution

/-! ## Solutions -/

/-- The texts of a solution. -/
def DomainSolution.texts (s : DomainSolution) : List Text :=
  s.domain :: s.approach :: (s.concepts ++ s.patterns)

theorem DomainSolution.allValid_of {d : Domain} (h : AllValid d.texts) (terms : List Text) :
    AllValid (DomainSolution.of d terms).texts := by
  simp only [Domain.texts, allValid_cons, allValid_append] at h
  obtain ⟨hname, ⟨hconcepts, hproperties⟩, hpatterns⟩ := h
  unfold of
  dsimp only
  have hsub : (if (d.touched terms).isEmpty then d.concepts.take 2 else d.touched terms) ⊆
      d.concepts := by
    split
    · exact List.take_subset ..
    · exact List.filter_sublist.subset
  generalize (if (d.touched terms).isEmpty then d.concepts.take 2 else d.touched terms) = used
    at hsub ⊢
  have hnames : AllValid (used.map (·.2.name)) := hconcepts.of_subset (List.map_subset _ hsub)
  have hvalues : AllValid (used.flatMap (·.2.properties)) := hproperties.of_subset fun t ht => by
    obtain ⟨e, he, ht⟩ := List.mem_flatMap.1 ht
    exact List.mem_flatMap.2 ⟨e, hsub he, ht⟩
  have hshared : AllValid
      (Dict.keys (d.patterns.filter fun p => p.2.any (used.map (·.2.name)).contains)) :=
    hpatterns.of_subset (List.map_subset _ List.filter_sublist.subset)
  have hsorted : AllValid (Dict.sorted (used.flatMap (·.2.properties) ++
      Dict.keys (d.patterns.filter fun p => p.2.any (used.map (·.2.name)).contains))) :=
    (allValid_append.2 ⟨hvalues, hshared⟩).of_subset (Dict.sorted_subset _)
  have hjoin : (join ", " (used.map (·.2.name))).Valid := hnames.join (valid_ofString _)
  simp only [texts, allValid_cons, allValid_append]
  refine ⟨hname, ?_, hnames, hsorted⟩
  split <;> simp [hname, hjoin]

variable {ss : List DomainSolution}

theorem UnifiedSolution.mem_of_mem_shared {p : Text} (h : p ∈ shared ss) :
    ∃ s ∈ ss, p ∈ s.patterns := by
  obtain ⟨e, he, rfl⟩ := List.mem_map.1 h
  obtain ⟨p, hp, rfl⟩ := List.mem_map.1 (List.mem_filter.1 (List.mem_mergeSort.1 he)).1
  exact List.mem_flatMap.1 (Dict.sorted_subset _ hp)

/-- The texts of a unified solution. -/
def UnifiedSolution.texts (u : UnifiedSolution) : List Text :=
  u.approach :: (u.insights ++ u.commonPatterns)

theorem UnifiedSolution.allValid_of (h : ∀ s ∈ ss, AllValid s.texts) :
    AllValid (UnifiedSolution.of ss).texts := by
  have hshared : AllValid (shared ss) := fun p hp => by
    obtain ⟨s, hs, hp⟩ := mem_of_mem_shared hp
    exact h s hs p (by simp [DomainSolution.texts, hp])
  have hnames : ∀ us ⊆ ss, (join ", " (us.map (·.domain))).Valid := fun us hsub =>
    AllValid.join (allValid_map.2 fun s hs =>
      h s (hsub hs) s.domain (by simp [DomainSolution.texts])) (valid_ofString _)
  simp only [texts, UnifiedSolution.of, allValid_cons, allValid_append, allValid_map]
  refine ⟨?_, fun p hp => ?_, hshared⟩
  · have hfirst : (join ", " ((shared ss).take 3)).Valid :=
      (hshared.of_subset (List.take_subset ..)).join (valid_ofString _)
    split <;> simp [hnames ss (List.Subset.refl _), hfirst]
  · simp [hshared p hp, hnames (carriers ss p) List.filter_sublist.subset]

theorem DomainValidation.allValid_issues_of (s : DomainSolution) (common : List Text) :
    AllValid (DomainValidation.of s common).issues := by
  unfold of
  dsimp only
  rw [allValid_append]
  constructor
  · split_ifs <;> simp
  · split_ifs <;> simp

/-! ## Answers -/

namespace CrossDomainSolution

/-- The texts of a solution are valid. -/
structure Printable (s : CrossDomainSolution) : Prop where
  problem : s.problem.Valid
  domains : AllValid s.domains
  unknown : AllValid s.unknownDomains
  relevance : AllValid s.relevance.keys
  solutions : ∀ d ∈ s.solutions, AllValid d.texts
  unified : AllValid s.unified.texts
  validations : ∀ v ∈ s.validations, v.domain.Valid ∧ AllValid v.issues

theorem printable_of {r : Registry} (hr : r.Printable) (c : Config) {problem : Text}
    (hp : problem.Valid) {names : List Text} (hn : AllValid names) :
    (CrossDomainSolution.of r c problem names).Printable := by
  unfold CrossDomainSolution.of
  dsimp only
  obtain ⟨hdomains, hunknown, hrelevance⟩ := printable_select hr c problem.keywords hn
  generalize select r c problem.keywords names = s at *
  have hsolutions : ∀ d ∈ s.domains.map fun d => DomainSolution.of d problem.keywords,
      AllValid d.texts :=
    List.forall_mem_map.2 fun d hd => DomainSolution.allValid_of (hdomains d hd) _
  refine ⟨hp, ?_, hunknown, hrelevance, hsolutions, ?_, ?_⟩
  · exact allValid_map.2 fun d hd => hdomains d hd d.name (by simp [Domain.texts])
  · split
    · exact (by decide +kernel : AllValid UnifiedSolution.none.texts)
    · exact UnifiedSolution.allValid_of hsolutions
  · refine List.forall_mem_map.2 fun d hd => ⟨?_, DomainValidation.allValid_issues_of _ _⟩
    exact hsolutions d hd d.domain (by simp [DomainSolution.texts])

variable {s : CrossDomainSolution}

theorem Printable.answer (h : s.Printable) : s.answer.Printable := by
  have hunified := h.unified
  simp only [UnifiedSolution.texts, allValid_cons, allValid_append] at hunified
  have hsolution : ∀ d ∈ s.solutions, d.domain.Valid ∧ d.approach.Valid ∧ AllValid d.concepts ∧
      AllValid d.patterns := fun d hd => by
    simpa only [DomainSolution.texts, allValid_cons, allValid_append] using h.solutions d hd
  refine ⟨?_, ?_, ?_, ?_, ?_, ?_, ?_⟩
  · exact allValid_cons.2 ⟨hunified.1, hunified.2.1⟩
  · unfold CrossDomainSolution.answer proof
    dsimp only
    refine Ledger.Printable.push (Ledger.Printable.foldl (Ledger.Printable.foldl
      (Ledger.printable_empty.push h.problem.trim (valid_ofString _)) ?_) ?_) hunified.1 (by simp)
    · exact fun l d hd hl => hl.push (hsolution d hd).2.1 (by simp [hsolution d hd])
    · exact fun l i hi hl => hl.push (hunified.2.1 i hi) (valid_ofString _)
  · exact allValid_map.2 fun d hd => (hsolution d hd).2.1
  · simp only [CrossDomainSolution.answer, uncertainty, allValid_append, allValid_map,
      allValid_flatMap]
    refine ⟨⟨fun d hd => by simp [h.unknown d hd], by split <;> simp⟩, fun v hv issue hissue => ?_⟩
    simp [h.validations v hv, (h.validations v hv).2 issue hissue]
  · simp only [CrossDomainSolution.answer, uncertainty]
    split <;> simp
  · refine allValid_map.2 fun d hd => ?_
    have := hsolution d hd
    simp [this, this.2.2.1.join (valid_ofString ", ")]
  · have hsolutions : (Json.array (s.solutions.map DomainSolution.toJson)).Printable :=
      Json.printable_array_map.2 fun d hd => by
        have := hsolution d hd
        simp [DomainSolution.toJson, this]
    have hvalidations : (Json.array (s.validations.map DomainValidation.toJson)).Printable :=
      Json.printable_array_map.2 fun v hv => by
        simp [DomainValidation.toJson, h.validations v hv]
    have hunified : s.unified.toJson.Printable := by simp [UnifiedSolution.toJson, hunified]
    refine Json.printable_ofMembers ?_
    simp [h.problem, h.domains, h.unknown, h.relevance, hsolutions, hunified, hvalidations]

theorem printable_reason {r : Registry} (hr : r.Printable) (c : Config) (m : Metrics)
    {input : Text} {context : Json} (hi : input.Valid) (hc : context.Printable) :
    (reason r c m input context).1.Printable := by
  unfold reason
  split
  · exact (printable_of hr c hi (hc.textsField _)).answer
  · exact Result.printable_neutral (valid_ofString _)
      (Json.printable_object.2 (List.forall_mem_nil _)) allValid_nil

end CrossDomainSolution

end Reasoning
