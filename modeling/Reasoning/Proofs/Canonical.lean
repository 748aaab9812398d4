/-
  Statements are told by their words.

  A statement is matched by its words as they are written, and compared by its canonical form, which
  is put together of its words in small letters.  Both say the same, because words that are put
  together with spaces are read as they were: so is what a rule concludes.

  * `Bindings.Worded`, `tokens_of_instantiate`: templates that are filled with words;
  * `InferenceRule.worded_of_mem_apply`: what a rule finds are words;
  * `Text.canonical_faithful`: how canonical forms and conclusions are read.
-/
import Reasoning.Proofs.Enumeration
import Reasoning.Proofs.Replacement

namespace Reasoning

/-- Variables stand for words. -/
def Bindings.Worded (b : Bindings) : Prop := ∀ x ws, b.get? x = some ws → ∀ w ∈ ws, w.IsWord

/-- A filled template is read as the words of the template, each with what it stands for. -/
theorem tokens_of_instantiate {t c : Text} {b : Bindings} (hb : b.Worded)
    (h : instantiate t b = .ok c) : c.tokens = t.tokens.flatMap b.wordsOf := by
  rw [eq_join_of_instantiate h, Text.tokens_join]
  intro v hv
  obtain ⟨w, hw, hv⟩ := List.mem_flatMap.1 hv
  exact b.forall_wordsOf hb (Text.isWord_of_mem_tokens hw) v hv

namespace InferenceRule

variable {r : InferenceRule} {ts : List Text} {ms : List RuleMatch} {m : RuleMatch}

theorem worded_of_mem_apply (h : r.apply (ts.map Text.tokens) = .ok ms) (hm : m ∈ ms) :
    m.bindings.Worded ∧ instantiate r.consequent m.bindings = .ok m.conclusion := by
  obtain ⟨s, hs, hsm⟩ := exists_of_mem_apply h hm
  obtain ⟨is, -, -, -, -, -, ht⟩ := mem_ways_iff.1 hs
  have hmatches := matchOf_eq_ok_iff.1 hsm
  rw [hmatches.bindings]
  refine ⟨ht.forall_words ?_ fun x vs hx => (nomatch hx), hmatches.conclusion⟩
  intro ws hws w hw
  obtain ⟨t, -, rfl⟩ := List.mem_map.1 hws
  exact Text.isWord_of_mem_tokens hw

end InferenceRule

namespace Text

/-- **How statements are read.**  The words that statements are compared by are those they are
    matched by, in small letters.  Canonical forms agree if and only if the words do, and are
    canonical.  What a template makes of words is read as the words of the template with those of
    its variables in their places; and so is every conclusion of a rule from statements, when it is
    a statement itself. -/
theorem canonical_faithful (s t : Text) :
    s.words = s.tokens.map lower ∧
    (s.canonical = t.canonical ↔ s.words = t.words) ∧
    s.canonical.canonical = s.canonical ∧
    (∀ (b : Bindings) (c : Text), b.Worded → instantiate s b = .ok c →
      c.tokens = s.tokens.flatMap b.wordsOf) ∧
    ∀ (r : InferenceRule) (ts : List Text) (ms : List RuleMatch),
      r.apply (ts.map tokens) = .ok ms → ∀ m ∈ ms,
        m.conclusion.tokens = r.consequent.tokens.flatMap m.bindings.wordsOf := by
  refine ⟨words_eq_map_tokens s, canonical_inj, ?_, fun b c hb h => tokens_of_instantiate hb h, ?_⟩
  · rw [canonical, words_canonical, ← canonical]
  · intro r ts ms h m hm
    obtain ⟨hworded, hconclusion⟩ := InferenceRule.worded_of_mem_apply h hm
    exact tokens_of_instantiate hworded hconclusion

/-- Words with an apostrophe and an underscore, and a rule that takes them apart. -/
theorem canonical_faithful_apostrophe :
    let b : Bindings := [("P", tokens "it's so_so"), ("Q", tokens "rain")]
    let r : InferenceRule := ⟨"modus", "Modus", .deduction,
      ofStrings ["if P then Q", "P"], "so Q, Q", 0.9, []⟩
    let ts := ofStrings ["If it's so_so, then don't go!", "It's so_so."]
    b.Worded ∧ instantiate "Q-P or P_1" b = .ok "rain it's so_so or P_1" ∧
      tokens "rain it's so_so or P_1" = (tokens "Q-P or P_1").flatMap b.wordsOf ∧
      ∃ ms, r.apply (ts.map tokens) = .ok ms ∧ ∃ m ∈ ms, m.conclusion = "so don't go don't go" ∧
        m.conclusion.tokens = r.consequent.tokens.flatMap m.bindings.wordsOf := by
  intro b r ts
  have hb : b.Worded := fun x ws hx => by
    have hwords : ∀ e ∈ b, ∀ w ∈ e.2, w.IsWord := by decide +kernel
    have hsorted : Dict.Sorted b := by unfold Dict.Sorted; decide +kernel
    exact hwords (x, ws) (hsorted.mem_iff.2 hx)
  have hfill : instantiate "Q-P or P_1" b = .ok "rain it's so_so or P_1" := by decide +kernel
  have hconcludes : (r.apply (ts.map tokens)).toOption.map (List.map (·.conclusion)) =
      some (ofStrings ["so don't go don't go"]) := by decide +kernel
  obtain ⟨-, -, -, hread, hrule⟩ := canonical_faithful "Q-P or P_1" []
  refine ⟨hb, hfill, hread b _ hb hfill, ?_⟩
  cases h : r.apply (ts.map tokens) with
  | error fault =>
    rw [h] at hconcludes
    cases hconcludes
  | ok ms =>
    rw [h] at hconcludes
    have hms : ms.map (·.conclusion) = ofStrings ["so don't go don't go"] :=
      Option.some.inj hconcludes
    obtain ⟨m, hm, hsays⟩ : ∃ m ∈ ms, m.conclusion = "so don't go don't go" :=
      List.mem_map.1 (hms ▸ List.mem_singleton_self _)
    exact ⟨ms, rfl, m, hm, hsays, hrule r ts ms h m hm⟩

end Text

end Reasoning
