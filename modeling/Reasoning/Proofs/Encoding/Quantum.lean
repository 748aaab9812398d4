/-
  Answers of the quantum engine are whole symbols.

  * `QuantumState.allValid_extract`: labels and names that are read from an input are ASCII, and
    states of a context are valid;
  * `Quantum.printable_reason`: the answer of the engine.
-/
import Reasoning.Proofs.Encoding
import Reasoning.Proofs.Regex
import Reasoning.Quantum.Reason

namespace Reasoning

open Text

namespace QuantumState

/-- The texts of a state. -/
def texts (s : QuantumState) : List Text :=
  s.id :: s.name :: (s.superposition.keys ++ s.entangledWith)

theorem printable_toJson {s : QuantumState} (h : AllValid s.texts) : s.toJson.Printable := by
  simp only [texts, allValid_cons, allValid_append] at h
  simp [toJson, h]

theorem valid_idAfter (n : Nat) : (idAfter n).Valid := (valid_cons (by decide)).2 (valid_ofNat _)

theorem allValid_evenSuperposition : AllValid (Dict.keys evenSuperposition) := by decide +kernel

theorem allValid_default : AllValid default.texts := by
  simp [texts, default, allValid_evenSuperposition]

theorem valid_piece {e : Regex} (he : e.Grouped (· < 0x80)) {input : Text} {m : Regex.Match}
    (hm : m ∈ e.all input) (n : Nat) : (m.piece n).Valid := by
  obtain ⟨previous, s, u, -, hm⟩ := Regex.exists_of_mem_all hm
  exact valid_of_ascii (Regex.piece_of_grouped he hm n)

theorem allValid_labels (input : Text) : AllValid (labels input) := by
  have hket : ket.Grouped (· < 0x80) := by decide +kernel
  intro t ht
  obtain ⟨m, hm, rfl⟩ := List.mem_map.1 (mem_distinct.1 ht)
  exact valid_piece hket hm 1

theorem allValid_ofLabels {labels : List Text} (h : AllValid labels) :
    ∀ s ∈ ofLabels labels, AllValid s.texts := by
  intro s hs
  obtain ⟨⟨label, i⟩, hlabel, rfl⟩ := List.mem_map.1 hs
  have hlabel : label.Valid := h _ ((List.mem_zipIdx' hlabel).2 ▸ List.getElem_mem _)
  have hkeys : AllValid (Dict.keys (Dict.ofList (labels.map fun l =>
      (l, (1 : Single) / .ofNat labels.length)))) :=
    h.of_subset fun t ht => by simpa using Dict.keys_ofList_subset _ ht
  simp [texts, ofLabel, valid_idAfter, hlabel, hkeys]

theorem valid_of_mem_phrases {input : Text} {f : Text × Text} (h : f ∈ phrases input) :
    f.1.Valid := by
  have hphrase : phrase.Grouped (· < 0x80) := by decide +kernel
  have hmem : f ∈ (phrase.all input).map fun m => ((m.piece 1).lower, (m.piece 2).lower) := by
    revert h
    unfold phrases
    dsimp only
    refine List.foldlRecOn _ _ (motive := fun kept => f ∈ kept → _) (fun h => nomatch h)
      fun kept hkept g hg h => ?_
    split at h
    · exact hkept h
    · rcases List.mem_append.1 h with h | h
      · exact hkept h
      · rw [List.mem_singleton.1 h]
        exact (List.mem_filter.1 hg).1
  obtain ⟨m, hm, rfl⟩ := List.mem_map.1 hmem
  exact (valid_piece hphrase hm 1).lower

theorem allValid_ofPhrases {phrases : List (Text × Text)} (h : ∀ f ∈ phrases, f.1.Valid)
    (count : Nat) : ∀ s ∈ ofPhrases phrases count, AllValid s.texts := by
  unfold ofPhrases
  dsimp only
  have hstates : ∀ s ∈ phrases.zipIdx.map (fun f => (ofPhrase f.1 (count + f.2), f.1.2)),
      AllValid s.1.texts := by
    refine List.forall_mem_map.2 fun f hf => ?_
    have hf : f.1.1.Valid := h f.1 ((List.mem_zipIdx' hf).2 ▸ List.getElem_mem _)
    have hkeys : AllValid (Dict.keys (ofPhrase f.1 (count + f.2)).superposition) := by
      unfold ofPhrase
      dsimp only
      split
      · exact allValid_evenSuperposition
      · exact allValid_nil
    simp only [texts, allValid_cons, allValid_append]
    exact ⟨valid_idAfter _, hf, hkeys, allValid_nil⟩
  generalize phrases.zipIdx.map (fun f => (ofPhrase f.1 (count + f.2), f.1.2)) = states
    at hstates ⊢
  refine List.forall_mem_map.2 fun s hs => ?_
  split
  · have hs := hstates s hs
    simp only [texts, allValid_cons, allValid_append] at hs ⊢
    refine ⟨hs.1, hs.2.1, hs.2.2.1, fun t ht => ?_⟩
    obtain ⟨u, hu, rfl⟩ := List.mem_map.1 (List.mem_filter.1 ht).1
    exact hstates u (List.mem_filter.1 hu).1 u.1.id (by simp [texts])
  · exact hstates s hs

theorem ofContextValue?_eq_some {entry : Json} {count : Nat} {s : QuantumState}
    (h : ofContextValue? count entry = some s) :
    s.id = entry.textField "id" (idAfter count) ∧ s.name = entry.textField "name" s.id ∧
      s.superposition = (((entry.member? "superposition").getD .null).members.filterMap
        fun (k, v) => v.number?.map fun x => (k, Score.clamp x)) ∧
      s.entangledWith = entry.textsField "entangledWith" := by
  unfold ofContextValue? at h
  split at h
  · cases h
  · rw [← Option.some.inj h]
    exact ⟨rfl, rfl, rfl, rfl⟩

theorem allValid_parts {parts : Dict Json} (h : ∀ m ∈ parts, m.1.Valid) :
    AllValid (Dict.keys (parts.filterMap fun (k, v) => v.number?.map fun x =>
      (k, Score.clamp x))) := by
  intro t ht
  obtain ⟨e, hmem, rfl⟩ := List.mem_map.1 ht
  obtain ⟨⟨k, v⟩, hkv, hmem⟩ := List.mem_filterMap.1 hmem
  obtain ⟨x, -, rfl⟩ := Option.map_eq_some_iff.1 hmem
  exact h _ hkv

theorem allValid_ofContextValue? {entry : Json} (he : entry.Printable) {count : Nat}
    {s : QuantumState} (h : ofContextValue? count entry = some s) : AllValid s.texts := by
  obtain ⟨hid, hname, hparts, hentangled⟩ := ofContextValue?_eq_some h
  have hvalid : s.id.Valid := by
    rw [hid]
    exact he.textField "id" (valid_idAfter count)
  simp only [texts, allValid_cons, allValid_append]
  refine ⟨hvalid, ?_, ?_, ?_⟩
  · rw [hname]
    exact he.textField "name" hvalid
  · rw [hparts]
    exact allValid_parts fun m hm => ((he.getD_member? "superposition").members m hm).1
  · rw [hentangled]
    exact he.textsField _

@[simp] theorem texts_withPhase (x : Single) (s : QuantumState) :
    (withPhase x s).texts = s.texts := by
  unfold withPhase
  split <;> rfl

theorem allValid_addEntries {ss : List QuantumState} {entries : List Json}
    (hs : ∀ s ∈ ss, AllValid s.texts) (he : ∀ entry ∈ entries, entry.Printable) :
    ∀ s ∈ addEntries ss entries, AllValid s.texts := by
  unfold addEntries
  refine List.foldlRecOn _ _ (motive := fun ss : List QuantumState => ∀ s ∈ ss, AllValid s.texts)
    hs fun ss hss entry hentry s hs => ?_
  rcases List.mem_append.1 hs with hs | hs
  · exact hss s hs
  · exact allValid_ofContextValue? (he entry hentry) (Option.mem_toList.1 hs)

theorem allValid_extract {context : Json} (input : Text) (hc : context.Printable) :
    ∀ s ∈ extract input context, AllValid s.texts := by
  have hnamed : ∀ s ∈ ofLabels (labels input) ++ ofPhrases (phrases input)
      (ofLabels (labels input)).length, AllValid s.texts :=
    List.forall_mem_append.2 ⟨allValid_ofLabels (allValid_labels input),
      allValid_ofPhrases (fun f hf => valid_of_mem_phrases hf) _⟩
  have hstates := allValid_addEntries hnamed (hc.listField "quantumStates")
  unfold extract
  dsimp only
  generalize addEntries _ _ = states at hstates ⊢
  split
  · exact hstates
  · simpa using hstates

end QuantumState

@[simp] theorem QuantumOperator.Kind.valid_name (k : QuantumOperator.Kind) : k.name.Valid := by
  cases k <;> exact valid_ofString _

namespace Quantum

variable {r : Registry} {c : Config} {ps : List Proposition} {os : List QuantumOperator}
  {ss : List QuantumState}

theorem mem_of_mem_outcomes {o : Outcome} (h : o ∈ outcomes c os ss) :
    ∃ q ∈ os, ∃ s ∈ ss,
      o.measurement = .measure s q c.collapseThreshold ∧ o.stateName = s.name := by
  obtain ⟨⟨q, i⟩, hq, h⟩ := List.mem_flatMap.1 h
  dsimp only at h
  split at h
  · obtain ⟨s, hs, rfl⟩ := List.mem_map.1 h
    exact ⟨q, (List.mem_zipIdx' hq).2 ▸ List.getElem_mem _, s, hs, rfl, rfl⟩
  · cases h

theorem mem_of_mem_applications {rules : List QuantumRule} {a : Application}
    (h : a ∈ applications rules os) : a.rule ∈ rules := by
  obtain ⟨rule, hrule, h⟩ := List.mem_filterMap.1 h
  obtain ⟨⟨o, i⟩, -, rfl⟩ := Option.map_eq_some_iff.1 h
  exact hrule

@[simp] theorem Traits.valid_classification (t : Traits) : t.classification.Valid := by
  unfold classification
  split_ifs <;> exact valid_ofString _

/-! ### Parts of an answer -/

namespace Findings

/-- All texts that the findings refer to are valid. -/
structure Legible (f : Findings) : Prop where
  premises : ∀ p ∈ f.premises, AllValid p.texts
  operators : ∀ o ∈ f.operators, AllValid o.texts
  states : ∀ s ∈ f.states, AllValid s.texts
  outcomes : ∀ o ∈ f.outcomes,
    o.measurement.state.Valid ∧ o.measurement.operator.Valid ∧ o.stateName.Valid
  applications : ∀ a ∈ f.applications, AllValid a.rule.texts

theorem legible_findings (hr : r.Printable) (c : Config) (hp : ∀ p ∈ ps, AllValid p.texts)
    (ho : ∀ o ∈ os, AllValid o.texts) (hs : ∀ s ∈ ss, AllValid s.texts) :
    (findings r c ps os ss).Legible where
  premises := hp
  operators := ho
  states := hs
  outcomes o hmem := by
    obtain ⟨q, hq, s, hmem, hm, hname⟩ := mem_of_mem_outcomes hmem
    rw [hm, hname]
    exact ⟨hs s hmem s.id (by simp [QuantumState.texts]),
      ho q hq q.symbol (by simp [QuantumOperator.texts]),
      hs s hmem s.name (by simp [QuantumState.texts])⟩
  applications a ha := hr.quantumRules _ (mem_of_mem_applications ha)

@[simp] theorem valid_statement (f : Findings) : f.statement.Valid := by
  simp [statement]

theorem allValid_uncertainty (f : Findings) (input : Text) :
    AllValid (f.uncertainty input).sources ∧ AllValid (f.uncertainty input).mitigations := by
  simp only [uncertainty, allValid_append]
  refine ⟨⟨⟨?_, ?_⟩, ?_⟩, ?_, ?_⟩ <;> split <;> simp

namespace Legible

variable {f : Findings}

theorem collapses (h : f.Legible) : AllValid f.collapses := by
  intro t ht
  obtain ⟨o, hmem, ht⟩ := List.mem_filterMap.1 ht
  split at ht
  · cases ht
    simp [h.outcomes o hmem]
  · cases ht

theorem steps (h : f.Legible) : f.steps.Printable := by
  unfold Findings.steps
  dsimp only
  refine Ledger.Printable.foldl (Ledger.Printable.foldl (Ledger.Printable.foldl
    (Ledger.printable_premises h.premises) ?_) ?_) ?_
  · intro l o ho hl
    have := h.operators o ho
    simp only [QuantumOperator.texts, allValid_cons] at this
    exact hl.push (by simp [this]) (valid_ofString _)
  · intro l o ho hl
    refine hl.push (by simp [h.outcomes o ho]) ?_
    split <;> exact valid_ofString _
  · intro l a ha hl
    have := h.applications a ha
    simp only [QuantumRule.texts, allValid_cons] at this
    exact hl.push (by simp [this]) this.2.1

theorem proof (h : f.Legible) (confidence : Single) : (f.proof confidence).Printable :=
  h.steps.push f.valid_statement (valid_ofString _)

theorem alternatives (h : f.Legible) : AllValid f.alternatives := by
  simp only [Findings.alternatives, allValid_append]
  refine ⟨fun t ht => ?_, by split <;> simp⟩
  obtain ⟨o, hmem, ht⟩ := List.mem_filterMap.1 ht
  split at ht
  · cases ht
  · cases ht
    simp [h.outcomes o hmem]

theorem evidence (h : f.Legible) :
    AllValid (f.applications.map fun a => a.rule.name ++ Text.ofString ": " ++ a.rule.constraint) :=
  allValid_map.2 fun a ha => by
    have := h.applications a ha
    simp only [QuantumRule.texts, allValid_cons] at this
    simp [this]

theorem details (h : f.Legible) : f.details.Printable := by
  have hoperators : (Json.array (f.operators.map fun o => .ofMembers
      [("symbol", .string o.symbol), ("name", .string o.name), ("kind", .string o.kind.name),
        ("strength", .ofSingle o.strength)])).Printable :=
    Json.printable_array_map.2 fun o ho => by
      have := h.operators o ho
      simp only [QuantumOperator.texts, allValid_cons] at this
      simp [this]
  have hstates : (Json.array (f.states.map QuantumState.toJson)).Printable :=
    Json.printable_array_map.2 fun s hs => QuantumState.printable_toJson (h.states s hs)
  have hmeasurements : (Json.array (f.outcomes.map fun o => o.measurement.toJson)).Printable :=
    Json.printable_array_map.2 fun o ho => by simp [Measurement.toJson, h.outcomes o ho]
  have happlied : AllValid (f.applications.map (·.rule.id)) :=
    allValid_map.2 fun a ha => h.applications a ha a.rule.id (by simp [QuantumRule.texts])
  exact Json.printable_ofMembers (by simp [hoperators, hstates, hmeasurements, happlied])

theorem printable_answer (h : f.Legible) (input : Text) : (f.answer input).Printable where
  conclusions := allValid_cons.2 ⟨f.valid_statement, h.collapses⟩
  proof := h.proof _
  alternatives := h.alternatives
  sources := (f.allValid_uncertainty input).1
  mitigations := (f.allValid_uncertainty input).2
  evidence := h.evidence
  details := h.details

end Legible

end Findings

theorem printable_reason (hr : r.Printable) (c : Config) (m : Metrics) {input : Text}
    {context : Json} (hi : input.Valid) (hc : context.Printable) :
    (reason r c m input context).1.Printable := by
  unfold reason
  dsimp only
  split
  · exact Result.printable_neutral (valid_ofString _) (Json.printable_ofMembers (by simp))
      allValid_nil
  · refine (Findings.legible_findings hr c (Extraction.allValid_premises hi hc)
      (fun o ho => hr.quantumOperators o (List.mem_filter.1 ho).1) ?_).printable_answer input
    split
    · simp [QuantumState.allValid_default]
    · exact QuantumState.allValid_extract input hc

end Quantum

end Reasoning
