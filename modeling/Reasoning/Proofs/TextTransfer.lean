/-
  Transfers of a text.

  A transfer puts the partners of its concepts into the text that it is given, one concept after
  the other.  A concept that is met in a partner that was put in before is replaced there, too.
  Where no concept is part of a longer word or of the partner of another concept, that does not
  happen, and all concepts are replaced as if at once.

  * `Transfer.isWord_of_mem_conceptMap`: the concepts of a text are words of it;
  * `Transfer.Unmixed`: concepts that are no parts of other words and partners;
  * `Transfer.of_text_substitutes`: what a transfer makes of a text.
-/
import Reasoning.Proofs.Assignment
import Reasoning.Proofs.Detachment

namespace Reasoning

theorem Text.mem_tokens_of_mem_keywords {t w : Text} (h : w ∈ t.keywords) : w ∈ t.lower.tokens :=
  (List.mem_filter.1 (Text.mem_distinct.1 h)).1

namespace Transfer

variable {r : Registry} {c : Config} {source target : Domain} {fromName toName : Text} {s : Text}
  {n : Text × Text}

/-- The concepts of a text are words of it, and their partners are not empty. -/
theorem isWord_of_mem_conceptMap (h : Feasible r fromName toName (.string s) source target)
    (hn : n ∈ (Transfer.of r c fromName toName (.string s)).conceptMap) :
    n.1.IsWord ∧ n.2 ≠ [] := by
  rw [of_eq_ofPairing h] at hn
  obtain ⟨x, before, after, hconcepts, -, hpartner, -⟩ :=
    exists_made ((Dict.sorted_ofList _).mem_iff.1 hn)
  refine ⟨Text.isWord_of_mem_tokens (Text.mem_tokens_of_mem_keywords (t := s) ?_), hpartner⟩
  show n.1 ∈ (KnowledgeStructure.ofJson (.string s)).concepts
  rw [hconcepts]
  exact List.mem_append_right _ (List.mem_cons_self ..)

theorem nodup_keys_conceptMap (h : Feasible r fromName toName (.string s) source target) :
    (Transfer.of r c fromName toName (.string s)).conceptMap.keys.Nodup := by
  rw [of_eq_ofPairing h]
  exact (Dict.sorted_ofList _).nodup_keys

/-- A text without a concept is given back as it is. -/
theorem transferred_of_no_concepts {knowledge : Json}
    (h : (KnowledgeStructure.ofJson knowledge).concepts = []) :
    (Transfer.of r c fromName toName knowledge).transferred = knowledge := by
  unfold Transfer.of
  simp only [h]
  split
  · rename_i hcons
    cases hcons
  · rfl

/-- No concept is part of a longer word of the text, and none is part of the partner of another. -/
structure Unmixed (names : Dict Text) (s : Text) : Prop where
  words : ∀ n ∈ names, ∀ w ∈ s.words, n.1 <:+: w → n.1 = w
  partners : ∀ n ∈ names, ∀ m ∈ names, n.1 <:+: m.2 → n = m

/-- **What a transfer makes of a text.**  The partners of the concepts are put in, one concept after
    the other; a text without concepts is not changed.  If the concepts are unmixed, this is as if
    it were done at once: each of them is replaced by its partner wherever it stands in the text,
    what is around it is replaced on its own, and another order of the concepts comes to the
    same. -/
theorem of_text_substitutes (hsource : r.domain? (Domain.lookupName fromName) = some source)
    (htarget : r.domain? (Domain.lookupName toName) = some target) :
    let t := Transfer.of r c fromName toName (.string s)
    (t.outline.concepts = [] → t.transferred = .string s) ∧
    (t.outline.concepts ≠ [] → t.transferred = (Json.string s).rename t.conceptMap ∧
      (Unmixed t.conceptMap s → ∃ u, t.transferred = .string u ∧
        u = (Text.substitute t.conceptMap s.lower).bytes ∧
        (∀ n ∈ t.conceptMap, ∀ front back, s.lower = front ++ n.1 ++ back →
          u = (Text.substitute t.conceptMap front).bytes ++ n.2 ++
            (Text.substitute t.conceptMap back).bytes) ∧
        ∀ names : Dict Text, names.Perm t.conceptMap →
          (Json.string s).rename names = .string u)) := by
  intro t
  have houtline : t.outline = KnowledgeStructure.ofJson (.string s) := outline_of ..
  rw [houtline]
  refine ⟨transferred_of_no_concepts, fun hconcepts => ?_⟩
  have hfeasible : Feasible r fromName toName (.string s) source target :=
    ⟨hsource, htarget, hconcepts⟩
  have htransferred : t.transferred = (Json.string s).rename t.conceptMap :=
    transferred_of hfeasible
  refine ⟨htransferred, fun hunmixed => ?_⟩
  have hproper : Text.Proper t.conceptMap := fun n hn =>
    (isWord_of_mem_conceptMap hfeasible hn).imp_left Text.IsWord.ne_nil
  have hdetached : Text.Detached t.conceptMap s.lower :=
    .of_words (fun n hn => (isWord_of_mem_conceptMap hfeasible hn).1)
      (nodup_keys_conceptMap hfeasible) hunmixed.words
  have hrename (names : Dict Text) (hperm : names.Perm t.conceptMap) :
      (Json.string s).rename names = .string (Text.substitute t.conceptMap s.lower).bytes :=
    congrArg Json.string (hdetached.foldl_replaceAll hproper hunmixed.partners hperm)
  refine ⟨_, htransferred.trans (hrename _ (.refl _)), rfl, fun n hn front back hs => ?_, hrename⟩
  have hseparate := hdetached.separate
  rw [hs] at hseparate ⊢
  rw [Text.substitute_append hproper hn hseparate, Text.Marked.bytes_append,
    Text.Marked.bytes_append, Text.Marked.bytes_put]

/-- Adaptation and immunity become what technology has for them, in whatever order. -/
theorem of_text_substitutes_adaptation :
    let s := Text.ofString "Adaptation and immunity"
    let names : Dict Text := [(Text.ofString "adaptation", Text.ofString "adaptive system"),
      (Text.ofString "immunity", Text.ofString "machine learning")]
    let t := Transfer.of .seeded {} "biology" "technology" (.string s)
    (∃ source target, Feasible .seeded "biology" "technology" (.string s) source target) ∧
      t.conceptMap = names ∧ Unmixed names s ∧
      t.transferred = .ofText "adaptive system and machine learning" ∧
      (Json.string s).rename names.reverse = t.transferred := by
  intro s names t
  obtain ⟨source, hsource⟩ := Option.isSome_iff_exists.1
    (show (Registry.seeded.domain? (Domain.lookupName "biology")).isSome by decide +kernel)
  obtain ⟨target, htarget⟩ := Option.isSome_iff_exists.1
    (show (Registry.seeded.domain? (Domain.lookupName "technology")).isSome by decide +kernel)
  have hfeasible : Feasible .seeded "biology" "technology" (.string s) source target :=
    ⟨hsource, htarget, by decide +kernel⟩
  have hconcepts : t.outline.concepts ≠ [] := by decide +kernel
  have hmap : t.conceptMap = names := by decide +kernel
  have hunmixed : Unmixed names s := ⟨by decide +kernel, by decide +kernel⟩
  have hanswer : (Text.substitute names s.lower).bytes =
      Text.ofString "adaptive system and machine learning" := by decide +kernel
  have ht : Transfer.of .seeded {} "biology" "technology" (.string s) = t := rfl
  have hmain := (of_text_substitutes (c := {}) (s := s) hsource htarget).2
  rw [ht, hmap] at hmain
  -- What the transfer is in full would only be evaluated.
  clear_value t
  obtain ⟨u, hu, hsame, -, horder⟩ := (hmain hconcepts).2 hunmixed
  refine ⟨⟨source, target, hfeasible⟩, hmap, hunmixed, ?_, ?_⟩
  · rw [hu, hsame, hanswer]
    rfl
  · rw [horder names.reverse (List.reverse_perm names), hu]

/-- The partner of one concept is another concept, and is replaced in its turn, though no concept is
    part of another.  In the other order of the concepts it is not. -/
theorem of_text_chains :
    let s := Text.ofString "invariance and symmetry"
    let names : Dict Text := [(Text.ofString "invariance", Text.ofString "symmetry"),
      (Text.ofString "symmetry", Text.ofString "group")]
    let t := Transfer.of .seeded {} "philosophy" "mathematics" (.string s)
    Registry.seeded.Reachable ∧
      (Registry.seeded.domain? (Domain.lookupName "philosophy")).isSome ∧
      (Registry.seeded.domain? (Domain.lookupName "mathematics")).isSome ∧
      t.conceptMap = names ∧ (∀ n ∈ names, ∀ m ∈ names, n.1 <:+: m.1 → n = m) ∧
      t.transferred.text? = some (Text.ofString "group and group") ∧
      (Text.substitute names s.lower).bytes = Text.ofString "symmetry and group" ∧
      ((Json.string s).rename names.reverse).text? = some (Text.ofString "symmetry and group") := by
  intro s names t
  exact ⟨Registry.reachable_seeded, by decide +kernel, by decide +kernel, by decide +kernel,
    by decide +kernel, by decide +kernel, by decide +kernel, by decide +kernel⟩

end Transfer

end Reasoning
