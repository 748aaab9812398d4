/-
  Domains by their names.

  A domain is registered under its name as it is, and looked up under the trimmed name in small
  letters.

  * `Domain.lookupName_lookupName`: what a name is looked up under is looked up under itself;
  * `Registry.mem_domains_resolveDomains`, `Registry.mem_unknown_resolveDomains`: which domains a
    list of names stands for, and which names are reported;
  * `Registry.Names`: in every request a name stands for a domain;
  * `Registry.Consistent.names_iff_lookupName`: it does when it is looked up under the name of
    the domain;
  * `Registry.Reachable.names_own_iff`: so a domain can be named exactly when its name is trimmed
    and in small letters.
-/
import Reasoning.Proofs.Consistency
import Reasoning.Proofs.Text

namespace Reasoning

/-! ## Looked-up names -/

theorem Domain.lookupName_lookupName (name : Text) :
    lookupName (lookupName name) = lookupName name := by
  unfold lookupName
  rw [Text.trim_lower, Text.trim_trim, Text.lower_lower]

/-! ## Names of transfers -/

namespace Transfer

variable {r : Registry} {c : Config} {fromName toName n : Text} {knowledge : Json}

/-- A transfer reports its source, and its target, when nothing is found under the looked-up
    name. -/
theorem unknown_mem_issues_iff :
    (.unknownSource n ∈ (Transfer.of r c fromName toName knowledge).issues ↔
      n = Domain.lookupName fromName ∧ r.domain? (Domain.lookupName fromName) = none) ∧
    (.unknownTarget n ∈ (Transfer.of r c fromName toName knowledge).issues ↔
      n = Domain.lookupName toName ∧ r.domain? (Domain.lookupName toName) = none) := by
  unfold Transfer.of
  dsimp only
  split
  · rename_i hsource htarget _
    rw [hsource, htarget]
    unfold Transfer.between Transfer.ofPairing
    dsimp only
    split <;> simp
  · cases r.domain? (Domain.lookupName fromName) <;>
      cases r.domain? (Domain.lookupName toName) <;> simp

theorem of_eq_between {source target : Domain}
    (hsource : r.domain? (Domain.lookupName fromName) = some source)
    (htarget : r.domain? (Domain.lookupName toName) = some target)
    (hconcepts : (KnowledgeStructure.ofJson knowledge).concepts ≠ []) :
    Transfer.of r c fromName toName knowledge =
      Transfer.between r c source target (Domain.lookupName fromName) (Domain.lookupName toName)
        knowledge (.ofJson knowledge) := by
  obtain ⟨concept, concepts, hcons⟩ := List.exists_cons_of_ne_nil hconcepts
  unfold Transfer.of
  dsimp only
  rw [hsource, htarget, hcons]

end Transfer

namespace Registry

variable {r : Registry} {d : Domain} {name : Text} {names : List Text}

/-! ## Lists of names -/

/-- A domain is found under its own name. -/
theorem Consistent.domain?_eq_some_iff (h : r.Consistent) :
    r.domain? name = some d ↔ d ∈ r.domains.items ∧ d.name = name :=
  h.domains.find?_eq_some_iff

theorem Consistent.name_ne_nil (h : r.Consistent) (hd : r.domain? name = some d) : d.name ≠ [] :=
  (h.domains.good d (h.domain?_eq_some_iff.1 hd).1).1

/-- One name more is passed over, found or reported. -/
theorem resolveDomains_concat (r : Registry) (names : List Text) (raw : Text) :
    r.resolveDomains (names ++ [raw]) =
      let found := r.resolveDomains names
      let name := Domain.lookupName raw
      if name.isEmpty || found.domains.any (·.name == name) then found
      else match r.domain? name with
        | some d => { found with domains := found.domains ++ [d] }
        | none => { found with unknown := found.unknown ++ [name] } := by
  unfold resolveDomains
  exact List.foldl_concat ..

theorem mem_items_of_mem_resolveDomains (h : r.Consistent)
    (hd : d ∈ (r.resolveDomains names).domains) : d ∈ r.domains.items := by
  induction names using List.reverseRecOn with
  | nil => cases hd
  | append_singleton names raw ih =>
    rw [resolveDomains_concat] at hd
    dsimp only at hd
    split at hd
    · exact ih hd
    · split at hd
      · rename_i e he
        rcases List.mem_append.1 hd with hd | hd
        · exact ih hd
        · rw [List.mem_singleton.1 hd]
          exact (h.domain?_eq_some_iff.1 he).1
      · exact ih hd

/-- What has a name in the resolved domains is found under it. -/
theorem domain?_of_resolved (h : r.Consistent)
    (hany : (r.resolveDomains names).domains.any (·.name == name)) :
    ∃ e ∈ (r.resolveDomains names).domains, r.domain? name = some e := by
  obtain ⟨e, he, hname⟩ := List.any_eq_true.1 hany
  exact ⟨e, he, h.domain?_eq_some_iff.2
    ⟨mem_items_of_mem_resolveDomains h he, eq_of_beq hname⟩⟩

/-- A name adds its domain, unless that is there already, or is reported, unless it is empty. -/
theorem resolveDomains_cases (h : r.Consistent) (names : List Text) (raw : Text) :
    let found := r.resolveDomains names
    let next := r.resolveDomains (names ++ [raw])
    (∃ e, r.domain? (Domain.lookupName raw) = some e ∧ next.unknown = found.unknown ∧
      ∀ d, d ∈ next.domains ↔ d ∈ found.domains ∨ d = e) ∨
    r.domain? (Domain.lookupName raw) = none ∧ next.domains = found.domains ∧
      ∀ n, n ∈ next.unknown ↔ n ∈ found.unknown ∨ n ≠ [] ∧ n = Domain.lookupName raw := by
  intro found next
  have hnext : next = _ := resolveDomains_concat r names raw
  cases hdomain : r.domain? (Domain.lookupName raw) with
  | none =>
    refine .inr ⟨rfl, ?_⟩
    dsimp only at hnext
    split at hnext
    · rename_i hskip
      rw [hnext]
      refine ⟨rfl, fun n => ⟨.inl, fun hn => hn.resolve_right ?_⟩⟩
      rintro ⟨hne, rfl⟩
      -- A domain of that name would be registered, and found.
      rw [Bool.or_eq_true, List.isEmpty_iff] at hskip
      obtain ⟨e, -, hfound⟩ := domain?_of_resolved h (hskip.resolve_left hne)
      rw [hdomain] at hfound
      cases hfound
    · rename_i hnew
      rw [Bool.or_eq_true, not_or, List.isEmpty_iff] at hnew
      rw [hdomain] at hnext
      rw [hnext]
      refine ⟨rfl, fun n => ?_⟩
      rw [List.mem_append, List.mem_singleton]
      refine or_congr_right ⟨fun hn => ⟨hn ▸ hnew.1, hn⟩, And.right⟩
  | some e =>
    refine .inl ⟨e, rfl, ?_⟩
    have hname : e.name = Domain.lookupName raw := (h.domain?_eq_some_iff.1 hdomain).2
    dsimp only at hnext
    split at hnext
    · rename_i hskip
      rw [hnext]
      refine ⟨rfl, fun d => ⟨.inl, fun hd => hd.elim id ?_⟩⟩
      rintro rfl
      have hne : Domain.lookupName raw ≠ [] := hname ▸ h.name_ne_nil hdomain
      rw [Bool.or_eq_true, List.isEmpty_iff] at hskip
      obtain ⟨e, he, hfound⟩ := domain?_of_resolved h (hskip.resolve_left hne)
      rw [hdomain, Option.some.injEq] at hfound
      rwa [hfound]
    · rw [hdomain] at hnext
      rw [hnext]
      exact ⟨rfl, fun d => by rw [List.mem_append, List.mem_singleton]⟩

/-- The domains that names stand for. -/
theorem mem_domains_resolveDomains (h : r.Consistent) :
    d ∈ (r.resolveDomains names).domains ↔
      ∃ raw ∈ names, r.domain? (Domain.lookupName raw) = some d := by
  induction names using List.reverseRecOn with
  | nil => simp [resolveDomains]
  | append_singleton names raw ih =>
    simp only [List.mem_append, List.mem_singleton, or_and_right, exists_or, exists_eq_left, ← ih]
    rcases resolveDomains_cases h names raw with ⟨e, he, -, hnext⟩ | ⟨hnone, hnext, -⟩
    · rw [hnext, he, Option.some.injEq, eq_comm (a := e)]
    · rw [hnext, hnone]
      simp

/-- The names that are reported. -/
theorem mem_unknown_resolveDomains (h : r.Consistent) :
    name ∈ (r.resolveDomains names).unknown ↔
      ∃ raw ∈ names, name ≠ [] ∧ name = Domain.lookupName raw ∧
        r.domain? (Domain.lookupName raw) = none := by
  induction names using List.reverseRecOn with
  | nil => simp [resolveDomains]
  | append_singleton names raw ih =>
    simp only [List.mem_append, List.mem_singleton, or_and_right, exists_or, exists_eq_left, ← ih]
    rcases resolveDomains_cases h names raw with ⟨e, he, hnext, -⟩ | ⟨hnone, -, hnext⟩
    · rw [hnext, he]
      simp
    · rw [hnext, hnone]
      simp

/-! ## Named domains -/

/-- In every request that names domains the name stands for the domain. -/
structure Names (r : Registry) (name : Text) (d : Domain) : Prop where
  /-- A transfer from it starts from the domain. -/
  source : ∀ (c : Config) (toName : Text) (knowledge : Json),
    (∀ n, .unknownSource n ∉ (Transfer.of r c name toName knowledge).issues) ∧
    ∀ target, r.domain? (Domain.lookupName toName) = some target →
      (KnowledgeStructure.ofJson knowledge).concepts ≠ [] →
      Transfer.of r c name toName knowledge =
        Transfer.between r c d target (Domain.lookupName name) (Domain.lookupName toName)
          knowledge (.ofJson knowledge)
  /-- A transfer to it goes to the domain. -/
  target : ∀ (c : Config) (fromName : Text) (knowledge : Json),
    (∀ n, .unknownTarget n ∉ (Transfer.of r c fromName name knowledge).issues) ∧
    ∀ source, r.domain? (Domain.lookupName fromName) = some source →
      (KnowledgeStructure.ofJson knowledge).concepts ≠ [] →
      Transfer.of r c fromName name knowledge =
        Transfer.between r c source d (Domain.lookupName fromName) (Domain.lookupName name)
          knowledge (.ofJson knowledge)
  /-- Analogies are looked for in the domain. -/
  analogies : ∀ (c : Config) (source : Json),
    AnalogySearch.of r c source name =
      let s := Signature.ofJson source r.domains.items
      if s.properties.isEmpty then ⟨[], true⟩
      else ⟨(Analogy.ranked c d s).take c.maxAnalogies, false⟩
  /-- A problem is solved in the domain. -/
  across : ∀ (c : Config) (problem : Text) (names : List Text), name ∈ names →
    let s := CrossDomainSolution.of r c problem names
    d.name ∈ s.domains ∧ .of d problem.keywords ∈ s.solutions ∧
      Domain.lookupName name ∉ s.unknownDomains
  /-- Abstractions and syntheses are made over the domain. -/
  named : ∀ names : List Text, name ∈ names → d ∈ r.namedDomains names

/-- A name under which a domain is found stands for it. -/
theorem Consistent.names_of_domain? (h : r.Consistent)
    (hd : r.domain? (Domain.lookupName name) = some d) : r.Names name d where
  source c toName knowledge := by
    refine ⟨fun n hn => ?_, fun target htarget hconcepts =>
      Transfer.of_eq_between hd htarget hconcepts⟩
    rw [Transfer.unknown_mem_issues_iff.1, hd] at hn
    cases hn.2
  target c fromName knowledge := by
    refine ⟨fun n hn => ?_, fun source hsource hconcepts =>
      Transfer.of_eq_between hsource hd hconcepts⟩
    rw [Transfer.unknown_mem_issues_iff.2, hd] at hn
    cases hn.2
  analogies c source := by
    unfold AnalogySearch.of
    rw [hd]
  across c problem names hname := by
    have hmem : d ∈ (r.resolveDomains names).domains :=
      (mem_domains_resolveDomains h).2 ⟨name, hname, hd⟩
    have hselect : d ∈ (CrossDomainSolution.select r c problem.keywords names).domains := by
      unfold CrossDomainSolution.select
      have hnames : names.isEmpty = false := List.isEmpty_eq_false_iff.2 (List.ne_nil_of_mem hname)
      have hdomains : (r.resolveDomains names).domains.isEmpty = false :=
        List.isEmpty_eq_false_iff.2 (List.ne_nil_of_mem hmem)
      simp only [hnames, hdomains, Bool.false_eq_true, if_false, hmem]
    refine ⟨List.mem_map_of_mem hselect, List.mem_map_of_mem hselect, fun hunknown => ?_⟩
    obtain ⟨_, -, -, heq, hnone⟩ := (mem_unknown_resolveDomains h).1 hunknown
    rw [← heq, hd] at hnone
    cases hnone
  named names hname := by
    unfold namedDomains
    rw [if_neg (by simpa using List.ne_nil_of_mem hname)]
    exact (mem_domains_resolveDomains h).2 ⟨name, hname, hd⟩

/-- A name stands for a registered domain when it is looked up under the name of the domain. -/
theorem Consistent.names_iff_lookupName (h : r.Consistent) (hd : d ∈ r.domains.items) :
    r.Names name d ↔ Domain.lookupName name = d.name := by
  constructor
  · intro hnames
    have hmem := hnames.named [name] (List.mem_singleton_self name)
    obtain ⟨raw, hraw, hfound⟩ := (mem_domains_resolveDomains h).1 hmem
    rw [List.mem_singleton.1 hraw] at hfound
    exact (h.domain?_eq_some_iff.1 hfound).2.symm
  · intro hname
    exact h.names_of_domain? (h.domain?_eq_some_iff.2 ⟨hd, hname.symm⟩)

/-- **Which domains can be named.**  The own name of a registered domain stands for it in every
    request exactly when it is what names are looked up under, trimmed and in small letters; if it
    is not, no other name stands for the domain either. -/
theorem Reachable.names_own_iff (h : r.Reachable) (hd : d ∈ r.domains.items) :
    (r.Names d.name d ↔ Domain.lookupName d.name = d.name) ∧
    ((∃ name, r.Names name d) ↔ Domain.lookupName d.name = d.name) := by
  have hown : r.Names d.name d ↔ Domain.lookupName d.name = d.name :=
    h.consistent.names_iff_lookupName hd
  refine ⟨hown, ?_, fun hsmall => ⟨d.name, hown.2 hsmall⟩⟩
  rintro ⟨name, hname⟩
  rw [h.consistent.names_iff_lookupName hd] at hname
  rw [← hname, Domain.lookupName_lookupName]

/-- Biology can be named. -/
theorem names_own_iff_biology :
    let biology := Seed.biology
    biology ∈ seeded.domains.items ∧ seeded.Names biology.name biology := by
  intro biology
  have hmem : biology ∈ seeded.domains.items := by decide +kernel
  exact ⟨hmem, (reachable_seeded.names_own_iff hmem).1.2 (by decide +kernel)⟩

/-- A domain whose name has a capital letter is registered, and unknown when it is named. -/
theorem capital_name_unknown :
    let chemistry : Domain := ⟨"Chemistry", [("bond", ⟨"bond", ["link"]⟩)], [], [], []⟩
    let e := ((Engine.bare {}).answer (.register (.domain chemistry))).2
    chemistry ∈ e.registry.domains.items ∧
    (e.across "How do bonds form?" ["Chemistry"]).1.unknownDomains = ["chemistry"] ∧
    ¬ e.registry.Names chemistry.name chemistry := by
  intro chemistry e
  refine ⟨by decide +kernel, by decide +kernel, fun h => ?_⟩
  exact (h.across {} "How do bonds form?" ["Chemistry"] (by decide)).2.2 (by decide +kernel)

end Registry

end Reasoning
