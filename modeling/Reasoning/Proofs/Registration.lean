/-
  Registrations, and the registries that come of them.

  * `Registers`, `add_eq_ok_iff`: what an accepted registration has checked and what it changes,
    one case for each kind of record;
  * `addEach`: registrations one after the other;
  * `Reachable`: the registries that registrations lead to, `WellFormed`: what holds of them;
  * `Engine.registry_answer_of_isQuery`, `Engine.reachable_session`: requests that only ask leave
    the registry as it is, and every session leaves a registry that registrations lead to.
-/
import Reasoning.Proofs.Catalogue
import Reasoning.Proofs.Except
import Reasoning.Session

namespace Reasoning

namespace Registry

/-! ## Accepted registrations -/

theorem require_eq_ok {ok : Bool} {e : Error} {u : Unit} : require ok e = .ok u ↔ ok = true := by
  unfold require
  split <;> simp_all

theorem requireAll_eq_ok {α : Type} {xs : List α} {ok : α → Bool} {e : α → Error} {u : Unit} :
    requireAll xs ok e = .ok u ↔ ∀ x ∈ xs, ok x := by
  unfold requireAll
  split
  · rename_i x h
    have := List.find?_some h
    have := List.mem_of_find?_eq_some h
    simp only [reduceCtorEq, false_iff]
    grind
  · rename_i h
    simpa using h

theorem requireNamed_eq_ok {kind : Kind} {key name : Text} {u : Unit} :
    requireNamed kind key name = .ok u ↔ key ≠ [] ∧ name ≠ [] := by
  simp [requireNamed, bind_eq_ok, require_eq_ok]

/-- The record is accepted by the registry `r`, which becomes the registry at the end. -/
inductive Registers (r : Registry) : Record → Registry → Prop
  | logicalAxiom {a : Axiom} : a.id ≠ [] → a.name ≠ [] → a.statement ≠ [] →
      Registers r (.logicalAxiom a) { r with axioms := r.axioms.upsert a.id a }
  | inferenceRule {rule : InferenceRule} : rule.id ≠ [] → rule.name ≠ [] →
      rule.antecedents ≠ [] → rule.consequent ≠ [] →
      Registers r (.inferenceRule rule) { r with
        inferenceRules := r.inferenceRules.upsert rule.id
          { rule with confidence := Score.clamp rule.confidence } }
  | modalOperator {o : ModalOperator} : o.symbol ≠ [] → o.name ≠ [] →
      Registers r (.modalOperator o) { r with
        modalOperators := r.modalOperators.upsert o.symbol
          { o with strength := Score.clamp o.strength } }
  | modalRule {rule : ModalRule} : rule.id ≠ [] → rule.name ≠ [] →
      Registers r (.modalRule rule) { r with
        modalRules := r.modalRules.upsert rule.id
          { rule with confidence := Score.clamp rule.confidence } }
  | world {w : World} : w.id ≠ [] → w.name ≠ [] → w.id ≠ World.actualId →
      (∀ id ∈ w.accessibleFrom ++ w.accessibility.keys, r.knowsWorld w.id id) →
      Registers r (.world w) { r with
        worlds := r.worlds.upsert w.id
          { w with accessibility := w.accessibility.mapValues Score.clamp } }
  | distribution {d : Distribution} : d.id ≠ [] → d.name ≠ [] → d.supportLow ≤ d.supportHigh →
      (0 : Single) ≤ d.variance →
      Registers r (.distribution d) { r with distributions := r.distributions.upsert d.id d }
  | quantumOperator {o : QuantumOperator} : o.symbol ≠ [] → o.name ≠ [] → o.matrix ≠ [] →
      (∀ row ∈ o.matrix, row.length = o.matrix.length) →
      Registers r (.quantumOperator o) { r with
        quantumOperators := r.quantumOperators.upsert o.symbol
          { o with strength := Score.clamp o.strength } }
  | quantumRule {rule : QuantumRule} : rule.id ≠ [] → rule.name ≠ [] →
      Registers r (.quantumRule rule) { r with
        quantumRules := r.quantumRules.upsert rule.id
          { rule with confidence := Score.clamp rule.confidence } }
  | choice {c : Choice Single} : c.id ≠ [] → c.name ≠ [] →
      Registers r (.choice c) { r with
        choices := r.choices.upsert c.id { c with
          criteriaScores := c.criteriaScores.mapValues Score.clamp
          utilities := c.utilities.mapValues Score.clamp
          risks := c.risks.mapValues Score.clamp
          confidence := Score.clamp c.confidence } }
  | criterion {c : Criterion Single} : c.id ≠ [] → c.name ≠ [] → (0 : Single) ≤ c.weight →
      Registers r (.criterion c) { r with
        criteria := r.criteria.upsert c.id { c with importance := Score.clamp c.importance } }
  | decisionRule {rule : DecisionRule} : rule.id ≠ [] → rule.name ≠ [] →
      Registers r (.decisionRule rule) { r with
        decisionRules := r.decisionRules.upsert rule.id
          { rule with confidence := Score.clamp rule.confidence } }
  | domain {d : Domain} : d.name ≠ [] →
      (∀ p ∈ d.patterns, ∀ c ∈ p.2, d.concepts.contains c) →
      Registers r (.domain d) { r with domains := r.domains.upsert d.name d }
  | mapping {m : Mapping} : m.sourceDomain ≠ [] → m.targetDomain ≠ [] →
      Registers r (.mapping m) { r with
        mappings := r.mappings ++ [{ m with
          similarity := Score.clamp m.similarity, confidence := Score.clamp m.confidence }] }

/-- A registration is accepted exactly when its checks hold. -/
theorem add_eq_ok_iff {r s : Registry} {x : Record} : r.add x = .ok s ↔ r.Registers x s := by
  cases x <;>
    simp only [add, addAxiom, addInferenceRule, addModalOperator, addModalRule, addWorld,
      addDistribution, addQuantumOperator, addQuantumRule, addChoice, addCriterion,
      addDecisionRule, addDomain, addMapping, bind_eq_ok, require_eq_ok, requireAll_eq_ok,
      requireNamed_eq_ok, pure, Except.pure, Except.ok.injEq, exists_const, Bool.not_eq_true',
      List.isEmpty_eq_false_iff, decide_eq_true_eq, bne_iff_ne, List.all_eq_true, beq_iff_eq,
      Bool.and_eq_true, and_assoc, List.mem_flatMap, List.mem_map, forall_exists_index, and_imp]
  case modalOperator | modalRule | quantumRule | choice | decisionRule | mapping =>
    constructor
    · rintro ⟨_, _, rfl⟩
      constructor <;> assumption
    · rintro ⟨⟩
      exact ⟨‹_›, ‹_›, rfl⟩
  case logicalAxiom | criterion =>
    constructor
    · rintro ⟨_, _, _, rfl⟩
      constructor <;> assumption
    · rintro ⟨⟩
      exact ⟨‹_›, ‹_›, ‹_›, rfl⟩
  case inferenceRule | world | distribution | quantumOperator =>
    constructor
    · rintro ⟨_, _, _, _, rfl⟩
      constructor <;> assumption
    · rintro ⟨⟩
      exact ⟨‹_›, ‹_›, ‹_›, ‹_›, rfl⟩
  case domain =>
    constructor
    · rintro ⟨hname, hknown, rfl⟩
      exact .domain hname fun p hp c hc => hknown _ p hp c hc rfl
    · rintro ⟨⟩
      rename_i hname hknown
      exact ⟨hname, fun x p hp c hc hx => hx ▸ hknown p hp c hc, rfl⟩

/-- A mapping with scores is added as it is. -/
theorem addMapping_eq {m : Mapping} (hsource : m.sourceDomain ≠ []) (htarget : m.targetDomain ≠ [])
    (hsimilarity : Score.IsScore m.similarity) (hconfidence : Score.IsScore m.confidence)
    (r : Registry) : r.addMapping m = .ok { r with mappings := r.mappings ++ [m] } := by
  have h : r.Registers (.mapping m) _ := .mapping hsource htarget
  rw [hsimilarity.clamp, hconfidence.clamp] at h
  exact add_eq_ok_iff.2 h

/-- The registry after a registration, which changes nothing when it is refused. -/
def offer (r : Registry) (x : Record) : Registry := (r.add x).toOption.getD r

theorem offer_eq {r s : Registry} {x : Record} (h : r.Registers x s) : r.offer x = s := by
  rw [offer, add_eq_ok_iff.2 h]
  rfl

theorem add_eq_offer {r s : Registry} {x : Record} (h : r.Registers x s) :
    r.add x = .ok (r.offer x) := by
  rw [offer_eq h]
  exact add_eq_ok_iff.2 h

theorem offer_cases (r : Registry) (x : Record) :
    r.Registers x (r.offer x) ∨ (∀ s, ¬ r.Registers x s) ∧ r.offer x = r := by
  unfold offer
  cases h : r.add x with
  | ok s => exact .inl (add_eq_ok_iff.1 h)
  | error e =>
    refine .inr ⟨fun s hs => ?_, rfl⟩
    rw [add_eq_ok_iff.2 hs] at h
    cases h

/-- The registry after registrations one after the other. -/
def addEach (r : Registry) (records : List Record) : Registry := records.foldl offer r

/-! ## Registries that registrations lead to -/

/-- The registry comes of an empty one by registrations; the built-in knowledge is registered in
    this way too. -/
inductive Reachable : Registry → Prop
  | empty : Reachable .empty
  | add {r s : Registry} {x : Record} : Reachable r → r.add x = .ok s → Reachable s

theorem Reachable.offer {r : Registry} (h : r.Reachable) (x : Record) : (r.offer x).Reachable := by
  rcases offer_cases r x with hx | ⟨-, hx⟩
  · exact h.add (add_eq_ok_iff.2 hx)
  · rw [hx]
    exact h

/-- Records of one kind, all of them accepted, lead from one registry to another. -/
theorem Reachable.foldlM {α : Type} {f : Registry → α → Except Error Registry}
    (record : α → Record) (hf : ∀ r a, f r a = r.add (record a)) {as : List α} {r s : Registry}
    (h : r.Reachable) (hs : as.foldlM f r = .ok s) : s.Reachable := by
  induction as generalizing r with
  | nil =>
    cases hs
    exact h
  | cons a as ih =>
    rw [List.foldlM_cons, bind_eq_ok] at hs
    obtain ⟨r', ha, hs⟩ := hs
    rw [hf] at ha
    exact ih (h.add ha) hs

theorem Reachable.seed {r s : Registry} (h : r.Reachable) (hs : r.seed = .ok s) :
    s.Reachable := by
  simp only [Registry.seed, bind_eq_ok] at hs
  obtain ⟨r₁, h₁, r₂, h₂, r₃, h₃, r₄, h₄, r₅, h₅, r₆, h₆, r₇, h₇, r₈, h₈, r₉, h₉, hs⟩ := hs
  have h := h.foldlM .logicalAxiom (fun _ _ => rfl) h₁
  have h := h.foldlM .inferenceRule (fun _ _ => rfl) h₂
  have h := h.foldlM .modalOperator (fun _ _ => rfl) h₃
  have h := h.foldlM .modalRule (fun _ _ => rfl) h₄
  have h := h.foldlM .distribution (fun _ _ => rfl) h₅
  have h := h.foldlM .quantumOperator (fun _ _ => rfl) h₆
  have h := h.foldlM .quantumRule (fun _ _ => rfl) h₇
  have h := h.foldlM .decisionRule (fun _ _ => rfl) h₈
  have h := h.foldlM .domain (fun _ _ => rfl) h₉
  exact h.foldlM .mapping (fun _ _ => rfl) hs

theorem reachable_seeded : Registry.seeded.Reachable := by
  unfold seeded
  split
  · rename_i s hs
    exact Reachable.empty.seed hs
  · exact .empty

/-! ## What holds of them -/

/-- Domains have a name, and mappings have scores. -/
structure WellFormed (r : Registry) : Prop where
  domains : ∀ e ∈ r.domains.entries, e.1 ≠ []
  mappings : ∀ m ∈ r.mappings, Score.IsScore m.similarity ∧ Score.IsScore m.confidence

theorem Registers.wellFormed {r s : Registry} {x : Record} (h : r.Registers x s)
    (hr : r.WellFormed) : s.WellFormed := by
  cases h
  case domain hname _ =>
    refine ⟨fun e he => ?_, hr.mappings⟩
    rcases Catalogue.mem_upsert he with he | rfl
    · exact hr.domains e he
    · exact hname
  case mapping =>
    refine ⟨hr.domains, fun m hm => ?_⟩
    rcases List.mem_append.1 hm with hm | hm
    · exact hr.mappings m hm
    · rw [List.mem_singleton.1 hm]
      exact ⟨Score.isScore_clamp _, Score.isScore_clamp _⟩
  all_goals exact ⟨hr.domains, hr.mappings⟩

theorem Reachable.wellFormed {r : Registry} (h : r.Reachable) : r.WellFormed := by
  induction h with
  | empty => exact ⟨List.forall_mem_nil _, List.forall_mem_nil _⟩
  | add _ hadd ih => exact (add_eq_ok_iff.1 hadd).wellFormed ih

theorem WellFormed.name_ne_nil {r : Registry} (h : r.WellFormed) {name : Text} {d : Domain}
    (hd : r.domain? name = some d) : name ≠ [] :=
  h.domains _ (Catalogue.find?_eq_some_iff_mem.1 hd)

end Registry

/-! ## Sessions -/

namespace Engine

theorem registry_reasonIn (e : Engine) (input : Text) (context : Json) (modes : List Mode) :
    (e.reasonIn input context modes).2.registry = e.registry := by
  induction modes generalizing e with
  | nil => rfl
  | cons mode modes ih => exact ih (e.reason mode input context).2

/-- A request that only asks leaves the registry as it is. -/
theorem registry_answer_of_isQuery {q : Request} (h : q.isQuery) (e : Engine) :
    (e.answer q).2.registry = e.registry := by
  cases q with
  | reasonAll input context => exact registry_reasonIn e input context Mode.all
  | transfer | register | seed => cases h
  | _ => rfl

theorem config_reasonIn (e : Engine) (input : Text) (context : Json) (modes : List Mode) :
    (e.reasonIn input context modes).2.config = e.config := by
  induction modes generalizing e with
  | nil => rfl
  | cons mode modes ih => exact ih (e.reason mode input context).2

theorem answer_register (x : Record) (e : Engine) :
    (e.answer (.register x)).2 = { e with registry := e.registry.offer x } := by
  show (e.registered (e.register x)).2 = _
  unfold register Registry.offer
  cases e.registry.add x <;> rfl

theorem answer_seed (e : Engine) :
    (e.answer .seed).2 = { e with registry := e.registry.seed.toOption.getD e.registry } := by
  show (e.registered e.seed).2 = _
  unfold seed
  cases e.registry.seed <;> rfl

/-- No request changes the configuration. -/
theorem config_answer (q : Request) (e : Engine) : (e.answer q).2.config = e.config := by
  cases q with
  | reasonAll input context => exact config_reasonIn e input context Mode.all
  | register x => rw [answer_register]
  | seed => rw [answer_seed]
  | _ => rfl

theorem reachable_answer (q : Request) {e : Engine} (h : e.registry.Reachable) :
    (e.answer q).2.registry.Reachable := by
  cases q with
  | transfer source target knowledge =>
    show (Transfer.recordMapping _ e.registry).Reachable
    unfold Transfer.recordMapping
    split
    · exact h.offer (.mapping _)
    · exact h
  | register x =>
    rw [answer_register]
    exact h.offer x
  | seed =>
    rw [answer_seed]
    cases hs : e.registry.seed with
    | ok s => exact h.seed hs
    | error f => exact h
  | _ =>
    rw [registry_answer_of_isQuery rfl]
    exact h

theorem reachable_seeded (c : Config) : (Engine.seeded c).registry.Reachable := by
  dsimp only [seeded]
  exact Registry.reachable_seeded

/-- A session leaves a registry that registrations lead to. -/
theorem reachable_session (requests : List Request) {e : Engine} (h : e.registry.Reachable) :
    (e.session requests).2.registry.Reachable := by
  induction requests generalizing e with
  | nil => exact h
  | cons q requests ih => exact ih (reachable_answer q h)

end Engine

end Reasoning
