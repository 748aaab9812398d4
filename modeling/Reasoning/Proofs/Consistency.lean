/-
  What always holds of a registry.

  * `Catalogue.Keeps`: every record stands under its own key, no key stands twice, and every
    record is good; `Catalogue.Keeps.upsert`: a good record keeps it so;
  * `World.Closed`, `QuantumOperator.Square`, `Choice.Scored`, `Domain.Closed`: what a good
    record is, where that is more than a score;
  * `Registry.Consistent`: all this together, `Registers.consistent`: an accepted record keeps a
    registry consistent;
  * `Engine.session_consistent`: every session leaves a consistent registry, and a record that is
    refused leaves the engine as it was.
-/
import Reasoning.Proofs.Registration

namespace Reasoning

open Score

/-! ## Catalogues -/

namespace Catalogue

variable {α : Type} {c : Catalogue α} {key : α → Text} {good good' : α → Prop} {a : α} {k : Text}

/-- Every record stands under its own key, each key once, and every record is good. -/
structure Keeps (c : Catalogue α) (key : α → Text) (good : α → Prop) : Prop where
  distinct : c.keys.Nodup
  own : ∀ e ∈ c.entries, e.1 = key e.2
  good : ∀ a ∈ c.items, good a

namespace Keeps

theorem empty : (Catalogue.empty : Catalogue α).Keeps key good :=
  ⟨List.nodup_nil, List.forall_mem_nil _, List.forall_mem_nil _⟩

theorem mono (h : c.Keeps key good) (hgood : ∀ a, good a → good' a) : c.Keeps key good' :=
  ⟨h.distinct, h.own, fun a ha => hgood a (h.good a ha)⟩

theorem upsert (h : c.Keeps key good) (hk : key a = k) (ha : good a) :
    (c.upsert k a).Keeps key good where
  distinct := nodup_keys _
  own e he := by
    rcases mem_upsert he with he | rfl
    · exact h.own e he
    · exact hk.symm
  good b hb := by
    obtain ⟨l, he⟩ := mem_items.1 hb
    rcases mem_upsert he with he | heq
    · exact h.good b (mem_items.2 ⟨l, he⟩)
    · cases heq
      exact ha

theorem mem_entries_iff (h : c.Keeps key good) : (k, a) ∈ c.entries ↔ a ∈ c.items ∧ key a = k := by
  constructor
  · exact fun he => ⟨mem_items.2 ⟨k, he⟩, (h.own _ he).symm⟩
  · rintro ⟨ha, rfl⟩
    obtain ⟨l, he⟩ := mem_items.1 ha
    rwa [← h.own _ he]

/-- A look-up finds the record of the key. -/
theorem find?_eq_some_iff (h : c.Keeps key good) :
    c.find? k = some a ↔ a ∈ c.items ∧ key a = k := by
  rw [← h.mem_entries_iff, find?_eq_some_iff_mem]

/-- The keys are those that the records have. -/
theorem map_key_items (h : c.Keeps key good) : c.items.map key = c.keys := by
  rw [← c.map_snd_entries, ← c.map_fst_entries, List.map_map]
  exact List.map_congr_left fun e he => (h.own e he).symm

end Keeps

end Catalogue

/-! ## Good records -/

/-- The world is not the actual one, names only that one and known ones, and weighs its edges with
    scores. -/
structure World.Closed (known : List Text) (w : World) : Prop where
  id : w.id ≠ World.actualId
  accessibleFrom : ∀ id ∈ w.accessibleFrom, id = World.actualId ∨ id ∈ known
  accessibility : ∀ id ∈ w.accessibility.keys, id = World.actualId ∨ id ∈ known
  weights : ∀ x ∈ w.accessibility.values, IsScore x

/-- There is a matrix, and it is square. -/
structure QuantumOperator.Square (o : QuantumOperator) : Prop where
  rows : o.matrix ≠ []
  columns : ∀ row ∈ o.matrix, row.length = o.matrix.length

/-- All that is said of the choice is a score. -/
structure Choice.Scored (c : Choice Single) : Prop where
  criteriaScores : ∀ x ∈ c.criteriaScores.values, IsScore x
  utilities : ∀ x ∈ c.utilities.values, IsScore x
  risks : ∀ x ∈ c.risks.values, IsScore x
  confidence : IsScore c.confidence

/-- The patterns name concepts of the domain only. -/
def Domain.Closed (d : Domain) : Prop := ∀ p ∈ d.patterns, ∀ c ∈ p.2, d.concepts.contains c

/-- The values of a table are scores once they are clamped. -/
theorem isScore_of_mem_clamped {d : Dict Single} {x : Single}
    (h : x ∈ (d.mapValues Score.clamp).values) : IsScore x := by
  unfold Dict.values Dict.mapValues at h
  rw [List.map_map] at h
  obtain ⟨e, -, rfl⟩ := List.mem_map.1 h
  exact isScore_clamp e.2

theorem Dict.keys_mapValues {ν μ : Type} (g : ν → μ) (d : Dict ν) :
    (d.mapValues g).keys = d.keys := by
  unfold Dict.keys Dict.mapValues
  rw [List.map_map]
  rfl

theorem World.Closed.mono {known known' : List Text} {w : World} (h : w.Closed known)
    (hsub : ∀ id ∈ known, id ∈ known') : w.Closed known' :=
  ⟨h.id, fun id hid => (h.accessibleFrom id hid).imp_right (hsub id),
    fun id hid => (h.accessibility id hid).imp_right (hsub id), h.weights⟩

/-! ## Registries -/

namespace Registry

/-- Every catalogue keeps its records under their keys, and every record is as registration has
    checked it and made its scores. -/
structure Consistent (r : Registry) : Prop where
  axioms : r.axioms.Keeps (·.id) fun a => a.statement ≠ []
  inferenceRules : r.inferenceRules.Keeps (·.id) fun rule =>
    rule.antecedents ≠ [] ∧ rule.consequent ≠ [] ∧ IsScore rule.confidence
  modalOperators : r.modalOperators.Keeps (·.symbol) fun o => IsScore o.strength
  modalRules : r.modalRules.Keeps (·.id) fun rule => IsScore rule.confidence
  worlds : r.worlds.Keeps (·.id) (World.Closed r.worlds.keys)
  distributions : r.distributions.Keeps (·.id) fun d =>
    d.supportLow ≤ d.supportHigh ∧ (0 : Single) ≤ d.variance
  quantumOperators : r.quantumOperators.Keeps (·.symbol) fun o =>
    o.Square ∧ IsScore o.strength
  quantumRules : r.quantumRules.Keeps (·.id) fun rule => IsScore rule.confidence
  choices : r.choices.Keeps (·.id) Choice.Scored
  criteria : r.criteria.Keeps (·.id) fun c => (0 : Single) ≤ c.weight ∧ IsScore c.importance
  decisionRules : r.decisionRules.Keeps (·.id) fun rule => IsScore rule.confidence
  domains : r.domains.Keeps (·.name) fun d => d.name ≠ [] ∧ d.Closed
  mappings : ∀ m ∈ r.mappings, IsScore m.similarity ∧ IsScore m.confidence

theorem consistent_empty : Consistent .empty := by
  constructor
  case mappings => exact List.forall_mem_nil _
  all_goals exact Catalogue.Keeps.empty

/-- A world that is accepted is closed among the worlds that are there with it. -/
theorem closed_of_knowsWorld {r : Registry} {w v : World} (hid : w.id ≠ World.actualId)
    (hknown : ∀ id ∈ w.accessibleFrom ++ w.accessibility.keys, r.knowsWorld w.id id) :
    World.Closed (r.worlds.upsert w.id v).keys
      { w with accessibility := w.accessibility.mapValues Score.clamp } := by
  have hmem : ∀ id ∈ w.accessibleFrom ++ w.accessibility.keys,
      id = World.actualId ∨ id ∈ (r.worlds.upsert w.id v).keys := by
    intro id hmem
    have h := hknown id hmem
    unfold knowsWorld at h
    rw [Bool.or_eq_true, Bool.or_eq_true, beq_iff_eq, beq_iff_eq] at h
    rcases h with (h | rfl) | h
    · exact .inl h
    · exact .inr (Catalogue.mem_keys_upsert.2 (.inr rfl))
    · exact .inr (Catalogue.mem_keys_upsert.2 (.inl (Catalogue.contains_iff.1 h)))
  refine ⟨hid, fun id h => hmem id (List.mem_append_left _ h), fun id h => ?_,
    fun x => isScore_of_mem_clamped⟩
  dsimp only at h
  rw [Dict.keys_mapValues] at h
  exact hmem id (List.mem_append_right _ h)

/-- A record that is accepted keeps a registry consistent. -/
theorem Registers.consistent {r s : Registry} {x : Record} (h : r.Registers x s)
    (hr : r.Consistent) : s.Consistent := by
  cases h with
  | logicalAxiom _ _ hstatement => exact { hr with axioms := hr.axioms.upsert rfl hstatement }
  | inferenceRule _ _ hantecedents hconsequent =>
    exact { hr with
      inferenceRules := hr.inferenceRules.upsert rfl ⟨hantecedents, hconsequent, isScore_clamp _⟩ }
  | modalOperator =>
    exact { hr with modalOperators := hr.modalOperators.upsert rfl (isScore_clamp _) }
  | modalRule => exact { hr with modalRules := hr.modalRules.upsert rfl (isScore_clamp _) }
  | world _ _ hid hknown =>
    refine { hr with
      worlds := Catalogue.Keeps.upsert ?_ rfl (closed_of_knowsWorld hid hknown) }
    -- No world is taken away, so the older worlds are closed as before.
    exact hr.worlds.mono fun v hv => hv.mono fun _ hl => Catalogue.mem_keys_upsert.2 (.inl hl)
  | distribution _ _ hsupport hvariance =>
    exact { hr with distributions := hr.distributions.upsert rfl ⟨hsupport, hvariance⟩ }
  | quantumOperator _ _ hrows hcolumns =>
    exact { hr with
      quantumOperators := hr.quantumOperators.upsert rfl ⟨⟨hrows, hcolumns⟩, isScore_clamp _⟩ }
  | quantumRule => exact { hr with quantumRules := hr.quantumRules.upsert rfl (isScore_clamp _) }
  | choice =>
    refine { hr with choices := hr.choices.upsert rfl ⟨?_, ?_, ?_, isScore_clamp _⟩ } <;>
      exact fun x => isScore_of_mem_clamped
  | criterion _ _ hweight =>
    exact { hr with criteria := hr.criteria.upsert rfl ⟨hweight, isScore_clamp _⟩ }
  | decisionRule =>
    exact { hr with decisionRules := hr.decisionRules.upsert rfl (isScore_clamp _) }
  | domain hname hclosed =>
    exact { hr with domains := hr.domains.upsert rfl ⟨hname, hclosed⟩ }
  | mapping =>
    refine { hr with mappings := fun m hm => ?_ }
    rcases List.mem_append.1 hm with hm | hm
    · exact hr.mappings m hm
    · rw [List.mem_singleton.1 hm]
      exact ⟨isScore_clamp _, isScore_clamp _⟩

theorem Reachable.consistent {r : Registry} (h : r.Reachable) : r.Consistent := by
  induction h with
  | empty => exact consistent_empty
  | add _ hadd ih => exact (add_eq_ok_iff.1 hadd).consistent ih

end Registry

/-! ## Sessions -/

namespace Engine

/-- A record is accepted if its checks hold, and else refused, which changes nothing. -/
theorem answer_register_cases (e : Engine) (x : Record) :
    (∃ s, e.registry.Registers x s ∧
      e.answer (.register x) = (.registered, { e with registry := s })) ∨
    (∀ s, ¬ e.registry.Registers x s) ∧
      ∃ why, e.registry.add x = .error why ∧ e.answer (.register x) = (.refused why, e) := by
  show (∃ s, _ ∧ e.registered (e.register x) = _) ∨ _ ∧ ∃ why, _ ∧ e.registered (e.register x) = _
  unfold register
  cases h : e.registry.add x with
  | ok s => exact .inl ⟨s, Registry.add_eq_ok_iff.1 h, rfl⟩
  | error why =>
    refine .inr ⟨fun s hs => ?_, why, rfl, rfl⟩
    rw [Registry.add_eq_ok_iff.2 hs] at h
    cases h

/-- **What every session leaves is consistent.**  Whatever was registered, refused, transferred or
    asked, each record stands once under its own key, names only what is there, and has scores
    where scores are due.  A record more is accepted and put in its place, or it is refused and
    nothing changes at all. -/
theorem session_consistent {c : Config} {e : Engine} (h : e = .bare c ∨ e = .seeded c)
    (requests : List Request) :
    let left := (e.session requests).2
    left.registry.Consistent ∧
    ∀ x, (∃ s, left.registry.Registers x s ∧
        left.answer (.register x) = (.registered, { left with registry := s })) ∨
      (∀ s, ¬ left.registry.Registers x s) ∧
        ∃ why, left.registry.add x = .error why ∧
          left.answer (.register x) = (.refused why, left) := by
  have hreachable : e.registry.Reachable := by
    rcases h with rfl | rfl
    · exact .empty
    · exact reachable_seeded c
  exact ⟨(reachable_session requests hreachable).consistent, answer_register_cases _⟩

/-- A world that names itself, one that names a world that is not there, and one that overwrites
    the first, come to a new engine. -/
theorem session_consistent_worlds :
    let first : World := ⟨"w1", "First", ["w0", "w1"], [], [("w1", 2)]⟩
    let lost : World := ⟨"w2", "Lost", ["w1", "w9"], [], []⟩
    let again : World := ⟨"w1", "Again", [], [], [("w0", 0.5)]⟩
    let left := ((bare {}).session
      [.register (.world first), .register (.world lost), .register (.world again)]).2
    left.registry.Consistent ∧ left.registry.worlds.items = [again] ∧
      ∃ why, left.answer (.register (.world lost)) = (.refused why, left) := by
  intro first lost again left
  obtain ⟨hconsistent, hnext⟩ := session_consistent (.inl rfl)
    [.register (.world first), .register (.world lost), .register (.world again)]
  refine ⟨hconsistent, by decide +kernel, ?_⟩
  rcases hnext (.world lost) with ⟨s, hs, -⟩ | ⟨-, why, -, hrefused⟩
  · have hrefused : (left.registry.add (.world lost)).toOption.isSome = false := by decide +kernel
    rw [Registry.add_eq_ok_iff.2 hs] at hrefused
    cases hrefused
  · exact ⟨why, hrefused⟩

end Engine

end Reasoning
