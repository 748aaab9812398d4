/-
  What outlives a request.

  Only registrations and transfers leave something that later requests can see, and of a
  transfer it is the mapping alone, which transfers and the lists and counts of mappings see.

  * `Registry.Blind`: steps that do the same whatever mappings there are;
  * `Engine.Alike`: engines that know the same apart from their mappings, with one lemma for
    what they answer, one for a request to both and one for a request to the first alone;
  * `Thins`: a session from which some requests are left out;
  * `Engine.session_forgets`: what the other requests are answered.
-/
import Reasoning.Proofs.Accounting

namespace Reasoning

/-! ## Mappings -/

namespace Registry

/-- The step does the same whatever mappings there are, apart from what becomes of them. -/
def Blind (f : Registry → Except Error Registry) : Prop :=
  ∀ r ms, ∃ ms', f { r with mappings := ms } = (fun s => { s with mappings := ms' }) <$> f r

theorem Blind.bind {f g : Registry → Except Error Registry} (hf : Blind f) (hg : Blind g) :
    Blind fun r => f r >>= g := by
  intro r ms
  obtain ⟨ms', hms'⟩ := hf r ms
  cases h : f r with
  | error why =>
    rw [h] at hms'
    exact ⟨ms', by simp only [hms', h]; rfl⟩
  | ok s =>
    rw [h] at hms'
    obtain ⟨ms'', hms''⟩ := hg s ms'
    exact ⟨ms'', by simp only [hms', h]; exact hms''⟩

theorem Blind.foldlM {α : Type} {f : Registry → α → Except Error Registry}
    (hf : ∀ a, Blind (f · a)) (as : List α) : Blind fun r => as.foldlM f r := by
  induction as with
  | nil => exact fun r ms => ⟨ms, rfl⟩
  | cons a as ih => exact (hf a).bind ih

/-- No registration looks at the mappings. -/
theorem blind_add (x : Record) : Blind (add · x) := by
  intro r ms
  cases x with
  | mapping m =>
    refine ⟨ms ++ [{ m with
      similarity := Score.clamp m.similarity, confidence := Score.clamp m.confidence }], ?_⟩
    simp only [add, addMapping, map_bind]
    rfl
  | _ =>
    refine ⟨ms, ?_⟩
    simp only [add, addAxiom, addInferenceRule, addModalOperator, addModalRule, addWorld,
      addDistribution, addQuantumOperator, addQuantumRule, addChoice, addCriterion,
      addDecisionRule, addDomain, map_bind]
    rfl

/-- Nor does the registration of the usual knowledge. -/
theorem blind_seed : Blind seed :=
  (Blind.foldlM (fun a => blind_add (.logicalAxiom a)) _).bind <|
  (Blind.foldlM (fun rule => blind_add (.inferenceRule rule)) _).bind <|
  (Blind.foldlM (fun o => blind_add (.modalOperator o)) _).bind <|
  (Blind.foldlM (fun rule => blind_add (.modalRule rule)) _).bind <|
  (Blind.foldlM (fun d => blind_add (.distribution d)) _).bind <|
  (Blind.foldlM (fun o => blind_add (.quantumOperator o)) _).bind <|
  (Blind.foldlM (fun rule => blind_add (.quantumRule rule)) _).bind <|
  (Blind.foldlM (fun rule => blind_add (.decisionRule rule)) _).bind <|
  (Blind.foldlM (fun d => blind_add (.domain d)) _).bind
  (Blind.foldlM (fun m => blind_add (.mapping m)) _)

/-- What a transfer writes is a mapping. -/
theorem recordMapping_eq_set_mappings (t : Transfer) (r : Registry) :
    ∃ ms, t.recordMapping r = { r with mappings := ms } := by
  unfold Transfer.recordMapping
  cases t.mapping with
  | none => exact ⟨r.mappings, rfl⟩
  | some m =>
    dsimp only
    cases h : r.addMapping m with
    | error why => exact ⟨r.mappings, rfl⟩
    | ok s =>
      have hs : r.Registers (.mapping m) s := add_eq_ok_iff.1 h
      cases hs
      exact ⟨_, rfl⟩

end Registry

/-! ## Requests -/

namespace Request

/-- The answer tells of the mappings, or goes by them. -/
def seesMappings : Request → Bool
  | .transfer .. | .mappingCount | .summary | .records .mappings => true
  | _ => false

end Request

namespace Engine

section
variable (r : Registry) (c : Config) (m m' : Metrics) (ms : List Mapping) (input : Text)
  (context : Json)

/-- No mode of reasoning looks at the metrics. -/
theorem evaluate_metrics (mode : Mode) :
    (evaluate r c m' mode input context).1 = (evaluate r c m mode input context).1 := by
  cases mode with
  | classical => unfold evaluate Classical.reason; dsimp only; split <;> rfl
  | modal =>
    unfold evaluate Modal.reason
    dsimp only
    split
    · rfl
    · split <;> rfl
  | probabilistic => unfold evaluate Probability.reason; dsimp only; split <;> rfl
  | quantum => unfold evaluate Quantum.reason; dsimp only; split <;> rfl
  | decision => unfold evaluate Decision.reason; dsimp only; split <;> rfl
  | crossDomain => unfold evaluate CrossDomainSolution.reason; dsimp only; split <;> rfl

/-- Nor does one look at the mappings. -/
theorem evaluate_set_mappings (mode : Mode) :
    evaluate { r with mappings := ms } c m mode input context =
      evaluate r c m mode input context := by
  cases mode <;> rfl

end

/-- The engines know the same, apart from their mappings; `P` says that these agree as well. -/
structure Alike (P : Prop) (e e' : Engine) : Prop where
  config : e'.config = e.config
  registry : ∃ ms, e'.registry = { e.registry with mappings := ms }
  mappings : P → e'.registry = e.registry

namespace Alike

variable {P : Prop} {e e' : Engine}

theorem refl (P : Prop) (e : Engine) : Alike P e e :=
  ⟨rfl, ⟨e.registry.mappings, rfl⟩, fun _ => rfl⟩

theorem result_eq (h : Alike P e e') (mode : Mode) (input : Text) (context : Json) :
    (e'.reason mode input context).1 = (e.reason mode input context).1 := by
  obtain ⟨ms, hms⟩ := h.registry
  show (evaluate e'.registry e'.config e'.metrics mode input context).1 = _
  rw [h.config, hms, evaluate_set_mappings]
  exact evaluate_metrics ..

theorem reason (h : Alike P e e') (mode : Mode) (input : Text) (context : Json) :
    Alike P (e.reason mode input context).2 (e'.reason mode input context).2 :=
  ⟨h.config, h.registry, h.mappings⟩

theorem results_eq (h : Alike P e e') (input : Text) (context : Json) (modes : List Mode) :
    (e'.reasonIn input context modes).1 = (e.reasonIn input context modes).1 := by
  induction modes generalizing e e' with
  | nil => rfl
  | cons mode modes ih =>
    have hfirst := h.result_eq mode input context
    have hrest := ih (h.reason mode input context)
    exact congrArg₂ List.cons (congrArg (mode, ·) hfirst) hrest

theorem exists_eq (h : Alike P e e') :
    ∃ ms m, e' = ⟨{ e.registry with mappings := ms }, m, e.config⟩ := by
  obtain ⟨r', m', c'⟩ := e'
  obtain ⟨hconfig, ⟨ms, hms⟩, -⟩ := h
  exact ⟨ms, m', by rw [← hms, ← hconfig]⟩

/-- A registration that does not look at the mappings is answered the same and leaves the engines
    alike. -/
theorem registered (h : Alike P e e') {f : Registry → Except Registry.Error Registry}
    (hf : Registry.Blind f) :
    let outcome (e : Engine) := e.registered do return { e with registry := ← f e.registry }
    (outcome e').1 = (outcome e).1 ∧ Alike P (outcome e).2 (outcome e').2 := by
  intro outcome
  obtain ⟨ms, hms⟩ := h.registry
  obtain ⟨ms', hms'⟩ := hf e.registry ms
  rw [← hms] at hms'
  cases he : f e.registry with
  | error why =>
    have he' : f e'.registry = .error why := by rw [hms', he]; rfl
    simp only [outcome, he, he']
    exact ⟨rfl, h⟩
  | ok s =>
    have he' : f e'.registry = .ok { s with mappings := ms' } := by rw [hms', he]; rfl
    simp only [outcome, he, he']
    refine ⟨rfl, h.config, ⟨ms', rfl⟩, fun hP => ?_⟩
    rw [h.mappings hP, he] at he'
    exact (Except.ok.inj he').symm

/-- Alike engines answer the same, apart from metrics and, where their mappings differ, requests
    that see mappings. -/
theorem answer_eq (h : Alike P e e') {q : Request} (hmetrics : q ≠ .metrics)
    (hmappings : q.seesMappings = true → P) : (e'.answer q).1 = (e.answer q).1 := by
  cases q with
  | reason mode input context => exact congrArg Answer.result (h.result_eq mode input context)
  | reasonAll input context => exact congrArg Answer.results (h.results_eq input context Mode.all)
  | register x => exact (h.registered (Registry.blind_add x)).1
  | seed =>
    rw [Engine.answer, Engine.answer]
    exact (h.registered Registry.blind_seed).1
  | metrics => exact absurd rfl hmetrics
  | transfer | mappingCount | summary =>
    simp only [Engine.answer, Engine.transfer, h.mappings (hmappings rfl), h.config]
  | records collection =>
    cases collection with
    | mappings =>
      simp only [Engine.answer, h.mappings (hmappings rfl)]
    | _ =>
      obtain ⟨ms, m, rfl⟩ := h.exists_eq
      rfl
  | _ =>
    obtain ⟨ms, m, rfl⟩ := h.exists_eq
    rfl

/-- Engines with the same knowledge and configuration as alike ones are alike. -/
theorem congr {f f' : Engine} (h : Alike P e e') (hregistry : f.registry = e.registry)
    (hconfig : f.config = e.config) (hregistry' : f'.registry = e'.registry)
    (hconfig' : f'.config = e'.config) : Alike P f f' := by
  refine ⟨?_, ?_, ?_⟩
  · rw [hconfig, hconfig', h.config]
  · rw [hregistry, hregistry']
    exact h.registry
  · rw [hregistry, hregistry']
    exact h.mappings

/-- A request to both engines leaves them alike. -/
theorem answer (h : Alike P e e') (q : Request) : Alike P (e.answer q).2 (e'.answer q).2 := by
  cases q with
  | register x => exact (h.registered (Registry.blind_add x)).2
  | seed =>
    rw [Engine.answer, Engine.answer]
    exact (h.registered Registry.blind_seed).2
  | transfer source target knowledge =>
    refine ⟨h.config, ?_, fun hP => ?_⟩
    · obtain ⟨ms, hms⟩ := h.registry
      obtain ⟨ms₁, h₁⟩ := Registry.recordMapping_eq_set_mappings
        (Transfer.of e.registry e.config source target knowledge) e.registry
      obtain ⟨ms₂, h₂⟩ := Registry.recordMapping_eq_set_mappings
        (Transfer.of e'.registry e'.config source target knowledge) e'.registry
      refine ⟨ms₂, h₂.trans ?_⟩
      show _ = { Transfer.recordMapping _ e.registry with mappings := ms₂ }
      rw [h₁, hms]
    · show Transfer.recordMapping (Transfer.of e'.registry e'.config source target knowledge)
        e'.registry = _
      rw [h.mappings hP, h.config]
      rfl
  | _ =>
    exact h.congr (registry_answer_of_isQuery rfl e) (config_answer _ e)
      (registry_answer_of_isQuery rfl e') (config_answer _ e')

/-- A request to the first engine alone leaves them alike, if it only asks, or is a transfer and
    the mappings need not agree. -/
theorem skip (h : Alike P e e') {q : Request} (hq : q.isQuery = true ∨ q.isTransfer = true ∧ ¬ P) :
    Alike P (e.answer q).2 e' := by
  rcases hq with hquery | ⟨htransfer, hP⟩
  · exact h.congr (registry_answer_of_isQuery hquery e) (config_answer q e) rfl rfl
  · cases q with
    | transfer source target knowledge =>
      refine ⟨h.config, ?_, fun hp => absurd hp hP⟩
      obtain ⟨ms, hms⟩ := h.registry
      obtain ⟨ms₁, h₁⟩ := Registry.recordMapping_eq_set_mappings
        (Transfer.of e.registry e.config source target knowledge) e.registry
      refine ⟨ms, ?_⟩
      show _ = { Transfer.recordMapping _ e.registry with mappings := ms }
      rw [h₁, hms]
    | _ => cases htransfer

end Alike

end Engine

/-! ## Sessions -/

/-- The second list of requests is the first without some of those for which `p` holds. -/
inductive Thins (p : Request → Prop) : List Request → List Request → Prop
  | nil : Thins p [] []
  | keep {q : Request} {qs qs' : List Request} : Thins p qs qs' → Thins p (q :: qs) (q :: qs')
  | drop {q : Request} {qs qs' : List Request} : p q → Thins p qs qs' → Thins p (q :: qs) qs'

theorem Thins.mono {p p' : Request → Prop} (hp : ∀ q, p q → p' q) {qs qs' : List Request}
    (h : Thins p qs qs') : Thins p' qs qs' := by
  induction h with
  | nil => exact .nil
  | keep _ ih => exact .keep ih
  | drop hq _ ih => exact .drop (hp _ hq) ih

namespace Engine

variable {P : Prop} {e e' : Engine}

theorem Alike.session {before before' : List Request}
    (hthins : Thins (fun q => q.isQuery = true ∨ q.isTransfer = true ∧ ¬ P) before before')
    (h : Alike P e e') : Alike P (e.session before).2 (e'.session before').2 := by
  induction hthins generalizing e e' with
  | nil => exact h
  | keep _ ih => exact ih (h.answer _)
  | drop hq _ ih => exact ih (h.skip hq)

/-- The request that comes after others is answered by the engine that they leave. -/
theorem session_getElem? (e : Engine) (before : List Request) (q : Request) (after : List Request) :
    (e.session (before ++ q :: after)).1[before.length]? =
      some ((e.session before).2.answer q).1 := by
  induction before generalizing e with
  | nil => rfl
  | cons p before ih => exact ih (e.answer p).2

/-- A request is answered the same after a session and after a thinned one, if it sees no more
    than what these leave alike. -/
theorem session_thinned {before before' : List Request}
    (hthins : Thins (fun q => q.isQuery = true ∨ q.isTransfer = true ∧ ¬ P) before before')
    (e : Engine) (after after' : List Request) {q : Request} (hmetrics : q ≠ .metrics)
    (hmappings : q.seesMappings = true → P) :
    ∃ a, (e.session (before ++ q :: after)).1[before.length]? = some a ∧
      (e.session (before' ++ q :: after')).1[before'.length]? = some a := by
  have halike := Alike.session hthins (.refl P e)
  refine ⟨_, session_getElem? e before q after, ?_⟩
  rw [session_getElem?, halike.answer_eq hmetrics hmappings]

/-- **Only registrations and transfers outlive a request.**  A request in a session is answered
    the same when requests before it that only ask are left out, unless it asks for metrics.  If
    transfers are left out as well, it is still answered the same, unless it sees mappings:
    a transfer, the list or the number of mappings, the summary of the registry.  What comes
    after makes no difference. -/
theorem session_forgets (e : Engine) {before before' : List Request} (after after' : List Request)
    {q : Request} (hq : q ≠ .metrics) :
    (Thins (fun q => q.isQuery = true) before before' →
      ∃ a, (e.session (before ++ q :: after)).1[before.length]? = some a ∧
        (e.session (before' ++ q :: after')).1[before'.length]? = some a) ∧
    (Thins (fun q => q.isQuery = true ∨ q.isTransfer = true) before before' →
      q.seesMappings = false →
      ∃ a, (e.session (before ++ q :: after)).1[before.length]? = some a ∧
        (e.session (before' ++ q :: after')).1[before'.length]? = some a) := by
  refine ⟨fun hthins => ?_, fun hthins hmappings => ?_⟩
  · have hthins : Thins (fun q => q.isQuery = true ∨ q.isTransfer = true ∧ ¬ True) before before' :=
      hthins.mono fun _ => .inl
    exact session_thinned hthins e after after' hq fun _ => trivial
  · have hthins : Thins (fun q => q.isQuery = true ∨ q.isTransfer = true ∧ ¬ False) before
        before' := hthins.mono fun _ => .imp_right (⟨·, id⟩)
    refine session_thinned hthins e after after' hq fun hsees => ?_
    rw [hmappings] at hsees
    cases hsees

/-- A question comes after a registration, a transfer and another question, and after the
    registration alone. -/
theorem session_forgets_adaptation :
    let e := Engine.seeded {}
    let known := Request.register (.mapping ⟨"art", "physics", "color", "wave", 0.5, 0.5, []⟩)
    let carried := Request.transfer "biology" "technology" (.ofTexts ["adaptation"])
    let asked := Request.across "How do systems adapt?" []
    ∃ a, (e.session [known, asked, carried, asked, .metrics]).1[3]? = some a ∧
      (e.session [known, asked]).1[1]? = some a := by
  intro e known carried asked
  have hthins : Thins (fun q => q.isQuery = true ∨ q.isTransfer = true)
      [known, asked, carried] [known] := .keep (.drop (.inl rfl) (.drop (.inr rfl) .nil))
  exact (session_forgets e [.metrics] [] (by simp [asked])).2 hthins rfl

end Engine

end Reasoning
