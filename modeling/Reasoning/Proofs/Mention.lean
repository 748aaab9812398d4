/-
  Which keys of some knowledge are related.

  A key is related to those that the text under it mentions.  The words of the text are compared
  with whole keys, as these are written, so a key of several words or with a capital letter is never
  met, even where all its words stand in the text.

  * `Text.mem_words_iff`: the words of a text;
  * `KnowledgeStructure.Mentions`: the words of a key stand in the text under another one;
  * `KnowledgeStructure.relates_iff`: which of the keys that are mentioned are related.
-/
import Reasoning.Domain.Structure
import Reasoning.Proofs.Replacement

namespace Reasoning

/-- A word is among those of a text if it is a word in small letters and stands in the text. -/
theorem Text.mem_words_iff {s w : Text} :
    w ∈ words s ↔ words w <:+: words s ∧ w.IsWord ∧ w.lower = w := by
  have hself (hword : w.IsWord) (hlower : w.lower = w) : words w = [w] := by
    rw [words, hlower, runs_word hword.ne_nil hword.word]
  constructor
  · intro h
    have hword : w.IsWord := isWord_of_mem_tokens h
    have hlower : w.lower = w := by
      rw [words_eq_map_tokens] at h
      obtain ⟨v, -, rfl⟩ := List.mem_map.1 h
      exact lower_lower v
    obtain ⟨before, behind, hsplit⟩ := List.append_of_mem h
    refine ⟨⟨before, behind, ?_⟩, hword, hlower⟩
    rw [hself hword hlower, hsplit, List.append_assoc, List.singleton_append]
  · rintro ⟨hstands, hword, hlower⟩
    rw [hself hword hlower] at hstands
    exact hstands.subset (List.mem_singleton_self w)

namespace KnowledgeStructure

variable {ms : Dict Json} {k l : Text}

/-- The value of `k` is a text in which the words of `l` stand one after the other, in whatever
    case. -/
def Mentions (ms : Dict Json) (k l : Text) : Prop :=
  ∃ s, (k, .string s) ∈ ms ∧ Text.words l <:+: Text.words s

theorem mem_conceptsOf : l ∈ conceptsOf (.object ms) ↔ l ∈ ms.keys ∧ l ≠ [] := by
  rw [conceptsOf, Text.distinctNonempty, Text.mem_distinct, List.mem_filter, Bool.not_eq_true',
    List.isEmpty_eq_false_iff]

theorem mem_mentions {concepts : List Text} {m : Text × Json} :
    (k, l) ∈ mentions concepts m ↔
      m.1 = k ∧ l ≠ k ∧ l ∈ concepts ∧ ∃ s, m.2 = .string s ∧ l ∈ Text.words s := by
  unfold mentions
  split
  · rename_i s hs
    simp only [List.mem_map, List.mem_filter, Bool.and_eq_true, bne_iff_ne, List.contains_iff_mem,
      Prod.mk.injEq, hs, Json.string.injEq, exists_eq_left']
    constructor
    · rintro ⟨w, ⟨hw, hne, hmem⟩, rfl, rfl⟩
      exact ⟨rfl, hne, hmem, hw⟩
    · rintro ⟨rfl, hne, hmem, hw⟩
      exact ⟨l, ⟨hw, hne, hmem⟩, rfl, rfl⟩
  · rename_i hother
    refine iff_of_false List.not_mem_nil ?_
    rintro ⟨-, -, -, s, hs, -⟩
    exact hother s hs

/-- **Which keys are related.**  Of the other keys that the text of a key mentions it is related to
    those that are a single word in small letters, and to no others. -/
theorem relates_iff : (k, l) ∈ (ofJson (.object ms)).relationships ↔
    (k ≠ l ∧ l ∈ ms.keys ∧ Mentions ms k l) ∧ l.IsWord ∧ l.lower = l := by
  show (k, l) ∈ ms.flatMap (mentions (conceptsOf (.object ms))) ↔ _
  simp only [List.mem_flatMap, mem_mentions, mem_conceptsOf, Mentions, Text.mem_words_iff]
  constructor
  · rintro ⟨⟨_, v⟩, hm, rfl, hne, ⟨hkey, -⟩, s, rfl, hstands, hword, hlower⟩
    exact ⟨⟨hne.symm, hkey, s, hm, hstands⟩, hword, hlower⟩
  · rintro ⟨⟨hne, hkey, s, hm, hstands⟩, hword, hlower⟩
    exact ⟨(k, .string s), hm, rfl, hne.symm, ⟨hkey, hword.ne_nil⟩, s, rfl, hstands, hword, hlower⟩

/-- The words of a key of two words stand in the text of another one, which is not related to
    it. -/
theorem not_relates_adaptive_system :
    let system := Text.join " " (Text.ofStrings ["adaptive", "system"])
    let ms : Dict Json :=
      [(system, .string "x"), ("feedback", .string "part of an adaptive system")]
    ms.Sorted ∧ Text.ofString "feedback" ≠ system ∧ system ∈ ms.keys ∧
      Mentions ms "feedback" system ∧
      (Text.ofString "feedback", system) ∉ (ofJson (.object ms)).relationships := by
  intro system ms
  have hmentions : Mentions ms "feedback" system :=
    ⟨"part of an adaptive system", by simp [ms], by decide +kernel⟩
  exact ⟨by unfold Dict.Sorted; decide +kernel, by decide +kernel, List.mem_cons_self ..,
    hmentions, by decide +kernel⟩

end KnowledgeStructure

end Reasoning
