/-
  Answers whose texts are whole symbols.

  * `Ledger.Printable`, `Result.Printable`: all texts of an answer are valid UTF-8, so that it can
    be written;
  * `Registry.Printable`: all texts of the records of a registry are, which holds of the seeds
    (`Registry.printable_seeded`);
  * `Extraction.allValid_premises`: premises are read from an input and a context without cutting
    a symbol.
-/
import Reasoning.Extraction
import Reasoning.Proofs.Reading
import Reasoning.Registry.Seed
import Reasoning.Result

namespace Reasoning

open Text

/-! ## Numbers -/

theorem Text.ascii_ofScaled (places n : Nat) : ∀ b ∈ ofScaled places n, b < 0x80 := by
  have hdot : ∀ b ∈ Text.ofString ".", b < 0x80 := by decide +kernel
  have hzero (k : Nat) : ∀ b ∈ List.replicate k '0'.toUInt8, b < 0x80 := fun b hb => by
    rw [List.eq_of_mem_replicate hb]
    decide
  unfold ofScaled
  dsimp only
  split
  · exact ascii_ofNat _
  · simp only [List.forall_mem_append]
    exact ⟨ascii_ofNat _, hdot, hzero _, ascii_ofNat _⟩

theorem Binary.ascii_fixed {f : Format} (x : Binary f) (places : Nat) :
    ∀ b ∈ x.fixed places, b < 0x80 := by
  cases x with
  | nan => exact (by decide +kernel : ∀ b ∈ Text.ofString "nan", b < 0x80)
  | infinite s =>
    have : ∀ s : Bool, ∀ b ∈ (if s then Text.ofString "-inf" else "inf"), b < 0x80 := by
      decide +kernel
    exact this s
  | finite s n h =>
    unfold fixed
    dsimp only
    split
    · exact List.forall_mem_cons.2 ⟨by decide, ascii_ofScaled _ _⟩
    · exact ascii_ofScaled _ _

@[simp] theorem Binary.valid_fixed {f : Format} (x : Binary f) (places : Nat) :
    (x.fixed places).Valid :=
  valid_of_ascii (x.ascii_fixed places)

/-! ## Answers -/

/-- The contents and justifications of all steps are valid. -/
def Ledger.Printable (l : Ledger) : Prop :=
  ∀ s ∈ l.steps, s.content.Valid ∧ s.justification.Valid

namespace Ledger

variable {l : Ledger}

@[simp] theorem printable_empty : empty.Printable := List.forall_mem_nil _

theorem printable_push {kind : Step.Kind} {content why : Text} {x : Single} {refs : List Nat} :
    (l.push kind content why x refs).Printable ↔ l.Printable ∧ content.Valid ∧ why.Valid := by
  unfold Printable push
  rw [List.forall_mem_append, List.forall_mem_singleton]

@[simp] theorem Printable.push (h : l.Printable) {kind : Step.Kind} {content why : Text}
    {x : Single} {refs : List Nat} (hcontent : content.Valid) (hwhy : why.Valid) :
    (l.push kind content why x refs).Printable :=
  printable_push.2 ⟨h, hcontent, hwhy⟩

theorem printable_foldl_push {α : Type} {as : List α} {kind : Step.Kind} {content why : α → Text}
    {x : α → Single} {refs : List Nat} :
    (as.foldl (fun l a => l.push kind (content a) (why a) (x a) refs) l).Printable ↔
      l.Printable ∧ ∀ a ∈ as, (content a).Valid ∧ (why a).Valid := by
  induction as generalizing l with
  | nil => simp
  | cons a as ih => rw [List.foldl_cons, ih, printable_push, List.forall_mem_cons, and_assoc]

theorem Printable.foldl {α : Type} {f : Ledger → α → Ledger} {as : List α} (h : l.Printable)
    (hf : ∀ l : Ledger, ∀ a ∈ as, l.Printable → (f l a).Printable) : (as.foldl f l).Printable :=
  List.foldlRecOn as f h fun l hl a ha => hf l a ha hl

end Ledger

theorem Uncertainty.printable_toJson {u : Uncertainty} (hs : AllValid u.sources)
    (hm : AllValid u.mitigations) : u.toJson.Printable := by
  simp [Uncertainty.toJson, hs, hm]

/-- All texts of the answer are valid. -/
structure Result.Printable (r : Result) : Prop where
  conclusions : AllValid r.conclusions
  proof : r.proof.Printable
  alternatives : AllValid r.alternatives
  sources : AllValid r.uncertainty.sources
  mitigations : AllValid r.uncertainty.mitigations
  evidence : AllValid r.evidence
  details : r.details.Printable

@[simp] theorem Mode.valid_name (m : Mode) : m.name.Valid := by cases m <;> exact valid_ofString _

@[simp] theorem Step.Kind.valid_name (k : Step.Kind) : k.name.Valid := by
  cases k <;> exact valid_ofString _

theorem Result.Printable.toJson {r : Result} (h : r.Printable) : r.toJson.Printable := by
  have hproof : (Json.array (r.proof.steps.map Step.toJson)).Printable :=
    Json.printable_array_map.2 fun s hs => by
      simp [Step.toJson, Json.printable_array_map, h.proof s hs]
  simp [Result.toJson, Uncertainty.printable_toJson h.sources h.mitigations, h.conclusions,
    h.alternatives, h.evidence, h.details, hproof]

theorem Result.printable_proof_of_toJson {r : Result} (h : r.toJson.Printable) :
    r.proof.Printable := by
  have hproof : r.toJson.member? "proof" = some (.array (r.proof.steps.map Step.toJson)) := rfl
  intro s hs
  have hstep := Json.printable_array_map.1 (h.member? hproof) s hs
  have hcontent : s.toJson.member? "content" = some (.string s.content) := rfl
  have hwhy : s.toJson.member? "justification" = some (.string s.justification) := rfl
  exact ⟨Json.printable_string.1 (hstep.member? hcontent),
    Json.printable_string.1 (hstep.member? hwhy)⟩

theorem Result.printable_neutral {mode : Mode} {why : Text} {details : Json}
    {mitigations : List Text} (hwhy : why.Valid) (hdetails : details.Printable)
    (hmitigations : AllValid mitigations) :
    (Result.neutral mode why details mitigations).Printable where
  conclusions := allValid_nil
  proof := Ledger.printable_empty
  alternatives := allValid_nil
  sources := by simpa [Result.neutral] using hwhy
  mitigations := by simpa [Result.neutral] using hmitigations
  evidence := allValid_nil
  details := hdetails

/-! ## Registries -/

/-- The texts of an axiom that are written. -/
def Axiom.texts (a : Axiom) : List Text := [a.id, a.name]

def InferenceRule.texts (r : InferenceRule) : List Text := r.id :: r.name :: r.evidence

def ModalOperator.texts (o : ModalOperator) : List Text :=
  o.symbol :: o.name :: o.description :: o.keywords

def ModalRule.texts (r : ModalRule) : List Text :=
  r.id :: r.name :: r.antecedent :: r.consequent :: r.evidence

def World.texts (w : World) : List Text :=
  w.id :: w.name :: (w.accessibleFrom ++ w.propositions.keys ++ w.accessibility.keys)

def Distribution.texts (d : Distribution) : List Text := d.id :: d.name :: d.parameters.keys

def QuantumOperator.texts (o : QuantumOperator) : List Text := [o.symbol, o.name]

def QuantumRule.texts (r : QuantumRule) : List Text :=
  [r.id, r.name, r.antecedent, r.consequent, r.constraint]

def Choice.texts {α : Type} (c : Choice α) : List Text :=
  c.id :: c.name :: (c.criteriaScores.keys ++ c.utilities.keys ++ c.risks.keys)

def Criterion.texts {α : Type} (c : Criterion α) : List Text := [c.id, c.name]

def DecisionRule.texts (r : DecisionRule) : List Text :=
  r.id :: r.name :: r.description :: r.evidence

def Domain.texts (d : Domain) : List Text :=
  d.name :: (d.concepts.map (·.2.name) ++ d.concepts.flatMap (·.2.properties) ++ d.patterns.keys)

/-- All texts of the registry that engines write are valid. -/
structure Registry.Printable (r : Registry) : Prop where
  axioms : ∀ a ∈ r.axioms.items, AllValid a.texts
  inferenceRules : ∀ rule ∈ r.inferenceRules.items, AllValid rule.texts
  modalOperators : ∀ o ∈ r.modalOperators.items, AllValid o.texts
  modalRules : ∀ rule ∈ r.modalRules.items, AllValid rule.texts
  worlds : ∀ w ∈ r.worlds.items, AllValid w.texts
  distributions : ∀ d ∈ r.distributions.items, AllValid d.texts
  quantumOperators : ∀ o ∈ r.quantumOperators.items, AllValid o.texts
  quantumRules : ∀ rule ∈ r.quantumRules.items, AllValid rule.texts
  choices : ∀ c ∈ r.choices.items, AllValid c.texts
  criteria : ∀ c ∈ r.criteria.items, AllValid c.texts
  decisionRules : ∀ rule ∈ r.decisionRules.items, AllValid rule.texts
  domains : ∀ d ∈ r.domains.items, AllValid d.texts

/-- The texts of the records of a registry. -/
def Registry.texts (r : Registry) : List Text :=
  r.axioms.items.flatMap Axiom.texts ++ r.inferenceRules.items.flatMap InferenceRule.texts ++
  r.modalOperators.items.flatMap ModalOperator.texts ++
  r.modalRules.items.flatMap ModalRule.texts ++
  r.worlds.items.flatMap World.texts ++ r.distributions.items.flatMap Distribution.texts ++
  r.quantumOperators.items.flatMap QuantumOperator.texts ++
  r.quantumRules.items.flatMap QuantumRule.texts ++ r.choices.items.flatMap Choice.texts ++
  r.criteria.items.flatMap Criterion.texts ++ r.decisionRules.items.flatMap DecisionRule.texts ++
  r.domains.items.flatMap Domain.texts

theorem Registry.printable_of_texts {r : Registry} (h : AllValid r.texts) : r.Printable := by
  simp only [texts, allValid_append, allValid_flatMap, and_assoc] at h
  obtain ⟨h₁, h₂, h₃, h₄, h₅, h₆, h₇, h₈, h₉, h₁₀, h₁₁, h₁₂⟩ := h
  exact ⟨h₁, h₂, h₃, h₄, h₅, h₆, h₇, h₈, h₉, h₁₀, h₁₁, h₁₂⟩

theorem Registry.printable_seeded : Registry.seeded.Printable :=
  printable_of_texts (by decide +kernel)

/-! ## Premises -/

/-- The texts of a premise. -/
def Proposition.texts (p : Proposition) : List Text := [p.id, p.text, p.source]

/-- The premises at the head of a proof. -/
theorem Ledger.printable_premises {ps : List Proposition} (hp : ∀ p ∈ ps, AllValid p.texts) :
    (ps.foldl (fun l p => l.push .premise p.text "given" p.certainty []) empty).Printable :=
  printable_foldl_push.2 ⟨printable_empty, fun p hps =>
    ⟨hp p hps p.text (by simp [Proposition.texts]), valid_ofString _⟩⟩

@[simp] theorem Connective.valid_name (c : Connective) : c.name.Valid := by
  cases c <;> exact valid_ofString _

theorem Connective.valid_normalize {t : Text} (h : t.Valid) : (normalize t).Valid := by
  have hsymbols : ∀ s ∈ symbols, s.1.Valid ∧ s.2.Valid := by decide +kernel
  exact List.foldlRecOn symbols _ h fun t ht s hs =>
    ht.replaceAll (hsymbols s hs).1 (hsymbols s hs).2

namespace Proposition

variable {index : Nat} {p : Proposition}

@[simp] theorem Kind.valid_name (k : Kind) : k.name.Valid := by
  cases k <;> exact valid_ofString _

theorem allValid_ofSentence (index : Nat) {text source : Text} (terminator : Option UInt8)
    (ht : text.Valid) (hs : source.Valid) :
    AllValid (ofSentence index text source terminator).texts := by
  have hid : (ofSentence index text source terminator).id.Valid :=
    (valid_cons (by decide)).2 (valid_ofNat index)
  simp only [texts, allValid_cons, allValid_nil, and_true]
  exact ⟨hid, ht, hs⟩

theorem allValid_ofContextValue? {entry : Json} (he : entry.Printable)
    (h : ofContextValue? index entry = some p) : AllValid p.texts := by
  have hfield {key s : Text} (hs : (entry.member? key).bind Json.text? = some s) : s.Valid := by
    obtain ⟨v, hv, hs⟩ := Option.bind_eq_some_iff.1 hs
    exact (he.member? hv).text? hs
  simp only [ofContextValue?, bind, Option.bind_eq_some_iff] at h
  obtain ⟨text, htext, h⟩ := h
  have htext : text.trim.Valid := by
    refine Valid.trim ?_
    cases hgiven : entry.text? with
    | none =>
      rw [hgiven] at htext
      exact hfield htext
    | some s =>
      rw [hgiven] at htext
      cases htext
      exact he.text? hgiven
  have hsentence := allValid_ofSentence index none htext (valid_ofString "context")
  split at h
  · cases h
  · split at h <;> cases h
    · exact hsentence
    · -- The source that the entry states is taken over, and else it is the context.
      simp only [texts, allValid_cons, allValid_nil, and_true] at hsentence ⊢
      refine ⟨hsentence.1, hsentence.2.1, ?_⟩
      cases hsource : (entry.member? "source").bind Json.text? with
      | none => exact hsentence.2.2
      | some s => exact hfield hsource

end Proposition

theorem Extraction.allValid_premises {input : Text} {context : Json} (hi : input.Valid)
    (hc : context.Printable) : ∀ p ∈ (extract input context).premises, AllValid p.texts := by
  unfold extract Proposition.addEntries
  dsimp only
  refine List.foldlRecOn _ _ (motive := fun ps : List Proposition => ∀ p ∈ ps, AllValid p.texts)
    ?_ ?_
  · intro p hp
    obtain ⟨⟨s, i⟩, hs, rfl⟩ := List.mem_map.1 hp
    have hs : s ∈ (Connective.normalize input).sentences :=
      (List.mem_zipIdx' hs).2 ▸ List.getElem_mem _
    exact Proposition.allValid_ofSentence _ _ ((Connective.valid_normalize hi).sentences s hs)
      (valid_ofString _)
  · intro ps hps entry hentry p hp
    rcases List.mem_append.1 hp with hp | hp
    · exact hps p hp
    · exact Proposition.allValid_ofContextValue? (hc.listField "premises" entry hentry)
        (Option.mem_toList.1 hp)

end Reasoning
