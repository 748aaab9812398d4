/-
  Premises of a text and premises of a context.

  A statement can be given as a text to read or as an entry of a context.  Symbols are written as
  words in the text only, so it means the same in both places exactly when it has no symbol; and
  where a premise comes from does not matter for what is derived.

  * `Proposition.Agrees`: premises that state the same;
  * `Classical.reason_of_unsourced`: what is derived from premises wherever they come from;
  * `Proposition.addEntries_eq`: the premises of a context;
  * `Extraction.agrees_iff`: one sentence as a text and as an entry of a context.
-/
import Reasoning.Classical.Reason
import Reasoning.Proofs.Sanity
import Reasoning.Proofs.Sentence
import Reasoning.Proofs.Symbols
import Reasoning.Registry.Seed

namespace Reasoning

/-! ## Sources -/

/-- The premise without the place it comes from. -/
def Proposition.unsourced (p : Proposition) : Proposition := { p with source := [] }

namespace Ledger

variable {l l' : Ledger}

/-- How confident the steps are, in their order. -/
def confidences (l : Ledger) : List Single := l.steps.map (·.confidence)

theorem confidences_push (l : Ledger) (kind : Step.Kind) (content why : Text) (x : Single)
    (refs : List Nat) :
    (l.push kind content why x refs).confidences = l.confidences ++ [Score.clamp x] :=
  List.map_append

theorem nextSeq_congr (h : l.confidences = l'.confidences) : l.nextSeq = l'.nextSeq := by
  have := congrArg List.length h
  rw [confidences, confidences, List.length_map, List.length_map] at this
  exact congrArg (· + 1) this

theorem meanConfidence_congr (h : l.confidences = l'.confidences) :
    l.meanConfidence = l'.meanConfidence := by
  have hempty (l : Ledger) : l.isEmpty = l.confidences.isEmpty := by
    unfold isEmpty confidences
    rw [List.isEmpty_map]
  have hmean (l : Ledger) : l.meanConfidence =
      if l.confidences.isEmpty then Score.neutral else Score.mean l.confidences := by
    rw [← hempty]
    rfl
  rw [hmean, hmean, h]

end Ledger

namespace Classical

variable {gs gs' : List Given} {run run' : Run}

/-- The premise without the place it comes from. -/
def Given.unsourced (g : Given) : Given := { g with proposition := g.proposition.unsourced }

theorem map_of_unsourced {β : Type} (f : Given → β) (hf : ∀ g, f g.unsourced = f g)
    (h : gs.map Given.unsourced = gs'.map Given.unsourced) : gs.map f = gs'.map f := by
  have hcomp : f = f ∘ Given.unsourced := funext fun g => (hf g).symm
  rw [hcomp, ← List.map_map, h, List.map_map]

theorem map_taken {β : Type} (f : Given → β) (gs : List Given) (m : RuleMatch) :
    (taken gs m).map f = m.premises.filterMap fun i => (gs.map f)[i]? := by
  unfold taken
  rw [List.map_filterMap]
  simp only [List.getElem?_map]

/-- The runs found the same, and their proofs are equally confident at every step. -/
def Run.Alike (run run' : Run) : Prop :=
  ∃ proof, run' = { run with proof := proof } ∧ run.proof.confidences = proof.confidences

namespace Run.Alike

theorem start (h : gs.map Given.unsourced = gs'.map Given.unsourced) :
    (Run.start gs).Alike (.start gs') := by
  have hevidence :
      (gs.filterMap fun g => g.instanceOf.map fun a => Text.ofString "Axiom: " ++ a.name) =
        gs'.filterMap fun g => g.instanceOf.map fun a => Text.ofString "Axiom: " ++ a.name := by
    have := map_of_unsourced (·.instanceOf) (fun _ => rfl) h
    have := congrArg (List.filterMap fun o : Option Axiom =>
      o.map fun a => Text.ofString "Axiom: " ++ a.name) this
    rwa [List.filterMap_map, List.filterMap_map] at this
  have hconfidences (gs : List Given) : (Run.start gs).proof.confidences =
      gs.map fun g => Score.clamp g.proposition.certainty := by
    suffices hfold : ∀ l : Ledger, (gs.foldl (fun l g =>
        l.push .premise g.proposition.text g.why g.proposition.certainty []) l).confidences =
        l.confidences ++ gs.map fun g => Score.clamp g.proposition.certainty from hfold .empty
    intro l
    induction gs generalizing l with
    | nil => exact (List.append_nil _).symm
    | cons g gs ih =>
      rw [List.foldl_cons, ih, Ledger.confidences_push, List.append_assoc]
      rfl
  refine ⟨(Run.start gs').proof, ?_, ?_⟩
  · unfold Run.start
    rw [hevidence]
  · rw [hconfidences, hconfidences]
    exact map_of_unsourced _ (fun _ => rfl) h

theorem take (h : run.Alike run') (hgs : gs.map Given.unsourced = gs'.map Given.unsourced)
    (r : InferenceRule) (m : RuleMatch) : (run.take gs r m).Alike (run'.take gs' r m) := by
  obtain ⟨proof, rfl, hproof⟩ := h
  have hrejection : rejection? m.conclusion (gs.map (·.proposition)) =
      rejection? m.conclusion (gs'.map (·.proposition)) := by
    refine rejection?_congr rfl ?_
    rw [List.map_map, List.map_map]
    exact map_of_unsourced _ (fun _ => rfl) hgs
  have hcertainties : (taken gs m).map (·.proposition.certainty) =
      (taken gs' m).map (·.proposition.certainty) := by
    rw [map_taken, map_taken, map_of_unsourced _ (fun _ => rfl) hgs]
  have hseqs : (taken gs m).map (·.seq) = (taken gs' m).map (·.seq) := by
    rw [map_taken, map_taken, map_of_unsourced _ (fun _ => rfl) hgs]
  unfold Run.take
  dsimp only
  rw [hrejection, hcertainties, hseqs, Ledger.nextSeq_congr hproof]
  cases rejection? m.conclusion (gs'.map (·.proposition)) with
  | some reason => exact ⟨proof, rfl, hproof⟩
  | none =>
    dsimp only
    have hpush := fun (kind : Step.Kind) (content why : Text) (x : Single) (refs : List Nat) =>
      show (run.proof.push kind content why x refs).confidences =
          (proof.push kind content why x refs).confidences by
        rw [Ledger.confidences_push, Ledger.confidences_push, hproof]
    unfold Run.hasDeduced
    dsimp only
    split
    · split
      · exact ⟨_, rfl, hpush ..⟩
      · exact ⟨_, rfl, hpush ..⟩
    · exact ⟨_, rfl, hpush ..⟩

theorem apply (h : run.Alike run') (hgs : gs.map Given.unsourced = gs'.map Given.unsourced)
    (r : InferenceRule) : (run.apply gs r).Alike (run'.apply gs' r) := by
  unfold Run.apply
  rw [map_of_unsourced (·.words) (fun _ => rfl) hgs]
  split
  · exact List.foldl_rel h fun m _ _ _ hrun => hrun.take hgs r m
  · obtain ⟨proof, rfl, hproof⟩ := h
    exact ⟨proof, rfl, hproof⟩

end Run.Alike

/-- The same is concluded, equally confident. -/
structure Concluded.Alike (c c' : Concluded) : Prop where
  conclusions : c.conclusions = c'.conclusions
  confidences : c.proof.confidences = c'.proof.confidences

theorem Run.Alike.conclude (h : run.Alike run')
    (hgs : gs.map Given.unsourced = gs'.map Given.unsourced) :
    (run.conclude gs).Alike (run'.conclude gs') := by
  obtain ⟨proof, rfl, hproof⟩ := h
  have hinstances (c : Concluded) (gs : List Given) : gs.foldl Concluded.addInstance c =
      (gs.map Given.unsourced).foldl Concluded.addInstance c := by
    rw [List.foldl_map]
    rfl
  unfold Run.conclude
  rw [hinstances _ gs, hinstances _ gs', hgs]
  refine List.foldl_rel (List.foldl_rel ⟨rfl, hproof⟩ fun d _ c c' hc => ?_) fun g _ c c' hc => ?_
  · refine ⟨congrArg (· ++ [d.conclusion]) hc.conclusions, ?_⟩
    rw [Concluded.addDeduced, Concluded.addDeduced, Ledger.confidences_push,
      Ledger.confidences_push, hc.confidences]
  · unfold Concluded.addInstance
    rw [hc.conclusions]
    split
    · exact hc
    · dsimp only
      split
      · exact hc
      · refine ⟨rfl, ?_⟩
        rw [Ledger.confidences_push, Ledger.confidences_push, hc.confidences]

theorem unsourced_givens (axioms : List Axiom) (ps : List Proposition) :
    (givens axioms ps).map Given.unsourced =
      (givens axioms (ps.map Proposition.unsourced)).map Given.unsourced := by
  unfold givens
  rw [List.zipIdx_map, List.map_map, List.map_map, List.map_map]
  refine List.map_congr_left fun e _ => ?_
  obtain ⟨p, i⟩ := e
  show (Given.ofProposition axioms p (i + 1)).unsourced =
    (Given.ofProposition axioms p.unsourced (i + 1)).unsourced
  unfold Given.ofProposition
  dsimp only [Proposition.unsourced]
  split <;> rfl

/-- **What is derived does not depend on where premises come from.** -/
theorem reason_of_unsourced {input input' : Text} {context context' : Json}
    (h : (Extraction.extract input context).premises.map Proposition.unsourced =
      (Extraction.extract input' context').premises.map Proposition.unsourced)
    (r : Registry) (c : Config) (m m' : Metrics) :
    let result := (reason r c m input context).1
    let result' := (reason r c m' input' context').1
    result.conclusions = result'.conclusions ∧ result.alternatives = result'.alternatives ∧
      result.confidence = result'.confidence := by
  have hempty : (Extraction.extract input context).premises.isEmpty =
      (Extraction.extract input' context').premises.isEmpty := by
    rw [← List.isEmpty_map (f := Proposition.unsourced), h, List.isEmpty_map]
  unfold reason
  dsimp only
  rw [hempty]
  split
  · exact ⟨rfl, rfl, rfl⟩
  · have hgs : (givens r.axioms.items (Extraction.extract input context).premises).map
          Given.unsourced =
        (givens r.axioms.items (Extraction.extract input' context').premises).map
          Given.unsourced := by
      rw [unsourced_givens, h, ← unsourced_givens]
    have hrun := List.foldl_rel (l := r.inferenceRules.items) (Run.Alike.start hgs)
      fun rule _ _ _ hrun => hrun.apply hgs rule
    have hdone := hrun.conclude hgs
    obtain ⟨proof, he, hproof⟩ := hrun
    unfold answer
    dsimp only
    refine ⟨hdone.conclusions, by rw [he], ?_⟩
    rw [hdone.conclusions, Ledger.meanConfidence_congr hdone.confidences]

end Classical

/-! ## Premises of contexts -/

namespace Proposition

/-- The premises that the entries of a context state when there are `n` others before them. -/
def ofEntries : Nat → List Json → List Proposition
  | _, [] => []
  | n, e :: es =>
    match ofContextValue? (n + 1) e with
    | some p => p :: ofEntries (n + 1) es
    | none => ofEntries n es

theorem addEntries_eq (ps : List Proposition) (es : List Json) :
    addEntries ps es = ps ++ ofEntries ps.length es := by
  induction es generalizing ps with
  | nil => exact (List.append_nil ps).symm
  | cons e es ih =>
    unfold addEntries at ih ⊢
    rw [List.foldl_cons, ih, ofEntries]
    cases ofContextValue? (ps.length + 1) e <;> simp

/-- A text among the entries states what is left of it when it is trimmed. -/
theorem ofContextValue?_string {s : Text} (h : s.hasAlnum) (index : Nat) :
    ofContextValue? index (.string s) = some (ofSentence index s.trim "context" none) := by
  simp [ofContextValue?, Json.text?, Text.hasAlnum_trim, h]

theorem addEntries_string {s : Text} (h : s.hasAlnum) (ps : List Proposition)
    (before after : List Json) :
    let others := addEntries ps before
    let q := ofSentence (others.length + 1) s.trim "context" none
    addEntries ps (before ++ .string s :: after) =
      others ++ q :: ofEntries (others.length + 1) after := by
  have hfold : addEntries ps (before ++ .string s :: after) =
      addEntries (addEntries ps before) (.string s :: after) := by
    unfold addEntries
    rw [List.foldl_append]
  dsimp only
  rw [hfold, addEntries_eq, ofEntries, ofContextValue?_string h]

/-- The premises state the same, are taken for the same, and are equally certain. -/
structure Agrees (p q : Proposition) : Prop where
  canonical : p.text.canonical = q.text.canonical
  kind : p.kind = q.kind
  certainty : p.certainty = q.certainty

end Proposition

/-! ## One sentence in both places -/

namespace Extraction

variable {s : Text}

theorem premises_extract (input : Text) (context : Json) :
    (extract input context).premises = Proposition.addEntries
      (inputPremises (Connective.normalize input)) (context.listField "premises") := rfl

/-- A text without a byte that may end a sentence states one premise. -/
theorem inputPremises_normalize (halnum : s.hasAlnum)
    (hends : ∀ b ∈ Text.ofString ".!?\n", b ∉ s) :
    inputPremises (Connective.normalize s) =
      [.ofSentence 1 (Connective.normalize s).trim "input" none] := by
  have hnone : ∀ b ∈ Text.ofString ".!?\n", b ∉ Connective.normalize s := by
    have hwords : ∀ b ∈ Text.ofString ".!?\n", ∀ e ∈ Connective.symbols, b ∉ e.2 := by
      decide +kernel
    intro b hb hmem
    rcases Connective.mem_of_mem_normalize hmem with hmem | ⟨e, he, hmem⟩
    · exact hends b hb hmem
    · exact hwords b hb e he hmem
  have hone : (Connective.normalize s).OneSentence := by
    rintro before b behind ht hends
    refine hnone b ?_ (ht ▸ List.mem_append_right _ (List.mem_cons_self ..))
    rcases hends with rfl | rfl | rfl | ⟨rfl, -⟩ <;> decide
  rw [inputPremises, Text.sentences_of_oneSentence hone (Connective.hasAlnum_normalize halnum)]
  rfl

/-- **A sentence in a context means what it means as a text if and only if it has no symbol.**  Then
    what is derived is the same too. -/
theorem agrees_iff (halnum : s.hasAlnum) (hends : ∀ b ∈ Text.ofString ".!?\n", b ∉ s)
    (input : Text) {context : Json} {before after : List Json}
    (hcontext : context.listField "premises" = before ++ .string s :: after) :
    ∃ p q ps qs, (∀ alone, ∃ others, (extract s alone).premises = p :: others) ∧
      (extract input context).premises = ps ++ q :: qs ∧
      ps = Proposition.addEntries (inputPremises (Connective.normalize input)) before ∧
      (p.Agrees q ↔ ¬ Connective.HasSymbol s) ∧
      (¬ Connective.HasSymbol s → ∀ r c m (given rest : Json),
        given.listField "premises" = .string s :: rest.listField "premises" →
        let result := (Classical.reason r c m s rest).1
        let result' := (Classical.reason r c m [] given).1
        result.conclusions = result'.conclusions ∧ result.alternatives = result'.alternatives ∧
          result.confidence = result'.confidence) := by
  have hinput := inputPremises_normalize halnum hends
  let others := Proposition.addEntries (inputPremises (Connective.normalize input)) before
  refine ⟨.ofSentence 1 (Connective.normalize s).trim "input" none,
    .ofSentence (others.length + 1) s.trim "context" none, others,
    Proposition.ofEntries (others.length + 1) after,
    fun alone => ⟨Proposition.ofEntries 1 (alone.listField "premises"), ?_⟩, ?_, rfl,
    ⟨fun h => ?_, fun h => ?_⟩, fun h r c m given rest hgiven => ?_⟩
  · rw [premises_extract, hinput, Proposition.addEntries_eq]
    rfl
  · rw [premises_extract, hcontext, Proposition.addEntries_string halnum]
  · have hwords := Text.canonical_inj.1 h.canonical
    dsimp only [Proposition.ofSentence] at hwords
    rw [Text.words_trim, Text.words_trim] at hwords
    exact Connective.words_normalize_iff.1 hwords
  · rw [Connective.normalize_of_not_hasSymbol h]
    exact ⟨rfl, rfl, rfl⟩
  · refine Classical.reason_of_unsourced ?_ r c m m
    have hnone : inputPremises (Connective.normalize []) = [] := by decide +kernel
    have hfirst := Proposition.addEntries_string halnum [] [] (rest.listField "premises")
    rw [List.nil_append] at hfirst
    rw [premises_extract, premises_extract, hinput, hgiven, hnone, hfirst,
      Proposition.addEntries_eq, Connective.normalize_of_not_hasSymbol h]
    rfl

/-- A conditional means the same in both places, and what it yields with another premise is the
    same. -/
theorem agrees_conditional :
    let s := Text.ofString "if it rains then it pours"
    let rest : Json := .ofMembers [("premises", .array [.string "it rains"])]
    let given : Json := .ofMembers [("premises", .array [.string s, .string "it rains"])]
    s.hasAlnum ∧ (∀ b ∈ Text.ofString ".!?\n", b ∉ s) ∧
      (∃ p q, (extract s rest).premises.head? = some p ∧
        (extract [] given).premises.head? = some q ∧ p.Agrees q) ∧
      (Classical.reason .seeded {} .empty [] given).1.conclusions =
        (Classical.reason .seeded {} .empty s rest).1.conclusions ∧
      Text.ofString "it pours" ∈ (Classical.reason .seeded {} .empty s rest).1.conclusions := by
  intro s rest given
  have halnum : s.hasAlnum := by decide +kernel
  have hends : ∀ b ∈ Text.ofString ".!?\n", b ∉ s := by decide +kernel
  have hsymbol : ¬ Connective.HasSymbol s := by decide +kernel
  obtain ⟨p, q, ps, qs, hp, hq, rfl, hagrees, hreason⟩ :=
    @agrees_iff s halnum hends [] given [] [.string "it rains"] rfl
  have hnone : Proposition.addEntries (inputPremises (Connective.normalize [])) [] = [] := by
    decide +kernel
  rw [hnone] at hq
  obtain ⟨others, hp⟩ := hp rest
  refine ⟨halnum, hends, ⟨p, q, by rw [hp]; rfl, by rw [hq]; rfl, hagrees.2 hsymbol⟩,
    (hreason hsymbol .seeded {} .empty given rest rfl).1.symm, by decide +kernel⟩

/-- A conjunction with a symbol is read as one in a text only: there its first half follows, and
    from the entry of a context nothing does. -/
theorem not_agrees_conjunction :
    let s := Text.ofString "rain ∧ wind"
    let given : Json := .ofMembers [("premises", .array [.string s])]
    s.hasAlnum ∧ (∀ b ∈ Text.ofString ".!?\n", b ∉ s) ∧
      (extract s .null).premises.map (·.text.canonical) = [Text.ofString "rain and wind"] ∧
      (extract [] given).premises.map (·.text.canonical) = [Text.ofString "rain wind"] ∧
      (Classical.reason .seeded {} .empty s .null).1.conclusions = [Text.ofString "rain"] ∧
      (Classical.reason .seeded {} .empty [] given).1.conclusions = [] := by
  decide +kernel

end Extraction

end Reasoning
