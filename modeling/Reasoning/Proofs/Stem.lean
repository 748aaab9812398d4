/-
  Words by their stems.

  Words are related exactly when they have the same stem.  So to be related is an equivalence, and
  how many features of a list have partners in another one depends on how often stems stand in both.

  * `Text.stem`, `Text.isRelated_iff`: what related words have in common;
  * `Text.anyRelated_comm`: related terms are found from either side;
  * `length_sharedFeatures`: how many features have a partner.
-/
import Mathlib.Algebra.BigOperators.Group.Finset.Basic
import Mathlib.Data.Finset.Basic
import Reasoning.Domain.Similarity

namespace Reasoning

namespace Text

variable {v w : Text} {ts us pool : List Text}

/-- The first bytes of a word, or all of a short word. -/
def stem (w : Text) : Text := w.take stemLength

theorem isRelated_iff : isRelated v w ↔ stem v = stem w := by
  have hrelated : isRelated v w ↔
      v = w ∨ (stemLength ≤ v.length ∧ stemLength ≤ w.length) ∧ stem v = stem w := by
    rw [isRelated, Bool.or_eq_true, Bool.and_eq_true, Bool.and_eq_true, decide_eq_true_iff,
      decide_eq_true_iff, beq_iff_eq, beq_iff_eq, stem, stem]
  rw [hrelated]
  refine ⟨fun h => h.elim (congrArg stem) And.right, fun h => ?_⟩
  by_cases hlong : stemLength ≤ v.length ∧ stemLength ≤ w.length
  · exact .inr ⟨hlong, h⟩
  · -- One of the words is its own stem, and a stem that short is a word.
    have hlength := congrArg List.length h
    rw [stem, stem, List.length_take, List.length_take] at hlength
    rw [stem, stem, List.take_of_length_le (by omega), List.take_of_length_le (by omega)] at h
    exact .inl h

theorem hasRelated_iff : hasRelated w pool ↔ stem w ∈ pool.map stem := by
  rw [hasRelated, List.any_eq_true, List.mem_map]
  simp only [isRelated_iff, eq_comm (a := stem w)]

theorem anyRelated_iff : anyRelated ts us ↔ ∃ t ∈ ts, ∃ u ∈ us, stem u = stem t := by
  rw [anyRelated, List.any_eq_true]
  simp only [hasRelated_iff, List.mem_map]

theorem anyRelated_comm (ts us : List Text) : anyRelated ts us = anyRelated us ts := by
  rw [Bool.eq_iff_iff, anyRelated_iff, anyRelated_iff]
  exact ⟨fun ⟨t, ht, u, hu, h⟩ => ⟨u, hu, t, ht, h.symm⟩,
    fun ⟨t, ht, u, hu, h⟩ => ⟨u, hu, t, ht, h.symm⟩⟩

end Text

/-! ## Partners -/

variable {a b : List Text}

/-- The features of a list that have a partner in another one are those whose stem stands in both,
    each as often as it stands in the first. -/
theorem length_sharedFeatures (a b : List Text) : (sharedFeatures a b).length =
    ∑ s ∈ (a.map Text.stem).toFinset ∩ (b.map Text.stem).toFinset, (a.map Text.stem).count s := by
  have hlength : (sharedFeatures a b).length =
      ((a.map Text.stem).filter fun s => s ∈ b.map Text.stem).length := by
    rw [List.filter_map, List.length_map, sharedFeatures]
    congr 2
    funext w
    rw [Bool.eq_iff_iff, Text.hasRelated_iff]
    simp
  rw [hlength, ← List.sum_toFinset_count_eq_length]
  refine Finset.sum_congr ?_ fun s hs => ?_
  · ext s
    simp
  · have hstem : s ∈ b.map Text.stem := List.mem_toFinset.1 (Finset.mem_inter.1 hs).2
    convert List.count_filter (l := a.map Text.stem) (p := fun s => decide (s ∈ b.map Text.stem))
      (decide_eq_true hstem)

/-- If no stem stands twice in a list, it has as many features with a partner as common stems. -/
theorem length_sharedFeatures_of_nodup (h : (a.map Text.stem).Nodup) (b : List Text) :
    (sharedFeatures a b).length =
      ((a.map Text.stem).toFinset ∩ (b.map Text.stem).toFinset).card := by
  rw [length_sharedFeatures, Finset.card_eq_sum_ones]
  refine Finset.sum_congr rfl fun s hs => ?_
  exact List.count_eq_one_of_mem h (List.mem_toFinset.1 (Finset.mem_inter.1 hs).1)

end Reasoning
