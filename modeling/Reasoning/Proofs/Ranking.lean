/-
  Lists by a number, the largest first.

  The sorts are stable, so where numbers are the same the elements stay in the order they came
  in, which is that of their keys.

  * `StableSort.filter_mergeSort`: the elements of one number stay in their order;
  * `StableSort.pairwise_mergeSort`: elements that come in the order of their keys are sorted by
    number, and by key where the numbers are the same; `StableSort.nodup_mergeSort`: their keys
    differ;
  * `Ranked`: this order for scores, `ranked_mergeSort`: a sort by scores leads to it;
  * `Ranked.le_of_mem_drop`: what is cut off behind is not larger than what is left.
-/
import Mathlib.Data.List.Sort
import Reasoning.Proofs.Order

namespace Reasoning

/-! ## Stable sorts -/

namespace StableSort

variable {α ι : Type} [LinearOrder ι] {as : List α} {rank : α → ι} {le : α → α → Bool}

/-- The first has the larger number, or the same. -/
def descending (rank : α → ι) (a b : α) : Bool := decide (rank b ≤ rank a)

theorem descending_trans (a b c : α) (hab : descending rank a b) (hbc : descending rank b c) :
    descending rank a c :=
  decide_eq_true ((of_decide_eq_true hbc).trans (of_decide_eq_true hab))

theorem descending_total (a b : α) : descending rank a b || descending rank b a := by
  simpa [descending] using le_total (rank b) (rank a)

/-- How the sort compares what is not in the list does not matter. -/
theorem mergeSort_congr (hle : ∀ a ∈ as, ∀ b ∈ as, le a b = descending rank a b) :
    as.mergeSort le = as.mergeSort (descending rank) := by
  simpa using List.map_mergeSort (f := id) hle

/-- A sort that goes by a number alone leaves the elements of one number in their order. -/
theorem filter_mergeSort (hle : ∀ a ∈ as, ∀ b ∈ as, le a b = descending rank a b) (i : ι) :
    (as.mergeSort le).filter (rank · = i) = as.filter (rank · = i) := by
  have hsub : (as.filter (rank · = i)).Sublist (as.mergeSort le) := by
    rw [mergeSort_congr hle]
    refine List.sublist_mergeSort descending_trans descending_total ?_ List.filter_sublist
    refine List.pairwise_iff_forall_sublist.2 fun {a b} hab => ?_
    have hrank : ∀ x ∈ [a, b], rank x = i := fun x hx => by
      simpa using (List.mem_filter.1 (hab.subset hx)).2
    simp [descending, hrank a (by simp), hrank b (by simp)]
  have hfilter := hsub.filter (rank · = i)
  simp only [List.filter_filter, Bool.and_self] at hfilter
  have hperm := (List.mergeSort_perm as le).filter (rank · = i)
  exact (hfilter.eq_of_length hperm.length_eq.symm).symm

/-- Elements that come in the order of their keys are sorted by number, and by key where the
    numbers are the same. -/
theorem pairwise_mergeSort (key : α → Text)
    (hle : ∀ a ∈ as, ∀ b ∈ as, le a b = descending rank a b)
    (hkeys : as.Pairwise fun a b => (key a).before (key b)) :
    (as.mergeSort le).Pairwise fun a b =>
      rank b < rank a ∨ rank a = rank b ∧ (key a).before (key b) := by
  refine List.pairwise_iff_forall_sublist.2 fun {a b} hab => ?_
  have hdesc : (as.mergeSort (descending rank)).Pairwise fun a b => descending rank a b :=
    List.pairwise_mergeSort descending_trans descending_total as
  rw [← mergeSort_congr hle] at hdesc
  have hrank : rank b ≤ rank a :=
    of_decide_eq_true (List.pairwise_iff_forall_sublist.1 hdesc hab)
  rcases hrank.lt_or_eq with hlt | heq
  · exact .inl hlt
  · have hfilter := hab.filter (rank · = rank a)
    rw [filter_mergeSort hle] at hfilter
    simp only [heq, decide_true, List.filter_cons_of_pos, List.filter_nil] at hfilter
    exact .inr ⟨heq.symm, List.pairwise_iff_forall_sublist.1 hkeys
      (hfilter.trans List.filter_sublist)⟩

/-- Elements that come in the order of their keys have different keys, also when they are sorted. -/
theorem nodup_mergeSort {key : α → Text} (hkeys : as.Pairwise fun a b => (key a).before (key b)) :
    ((as.mergeSort le).map key).Nodup := by
  refine ((List.mergeSort_perm as le).map key).nodup_iff.2 (List.pairwise_map.2 ?_)
  refine hkeys.imp fun {a b} hlt heq => ?_
  rw [heq] at hlt
  exact Text.not_before_self _ hlt

end StableSort

/-! ## Lists by score -/

theorem Binary.same_iff {f : Format} {x y : Binary f} :
    x.same y ↔ x.isNaN = false ∧ y.isNaN = false ∧ x.rank = y.rank := by
  show (order x y == some .eq) = true ↔ _
  by_cases h : x.isNaN = false ∧ y.isNaN = false
  · rw [order_eq h.1 h.2]
    simp [h]
  · rw [order_eq_none h, ← and_assoc, iff_false_intro h]
    simp

variable {α : Type} {score : α → Single} {key : α → Text} {as : List α}

/-- The elements come by score, the largest first, and in the order of their keys where the
    scores are the same. -/
def Ranked (score : α → Single) (key : α → Text) (as : List α) : Prop :=
  as.Pairwise fun a b =>
    score b < score a ∨ (score a).same (score b) ∧ (key a).before (key b)

/-- What is cut off behind has no larger score than what is left. -/
theorem Ranked.le_of_mem_drop (h : Ranked score key as) {n : Nat} {a b : α}
    (ha : a ∈ as.take n) (hb : b ∈ as.drop n) : score b ≤ score a := by
  rw [Ranked, ← List.take_append_drop n as] at h
  rcases (List.pairwise_append.1 h).2.2 a ha b hb with hlt | ⟨hsame, -⟩
  · exact Binary.le_of_lt hlt
  · obtain ⟨hna, hnb, hrank⟩ := Binary.same_iff.1 hsame
    exact Binary.le_iff.2 ⟨hnb, hna, hrank.ge⟩

/-- A sort by score ranks elements that come in the order of their keys. -/
theorem ranked_mergeSort (hscore : ∀ a ∈ as, (score a).isNaN = false)
    (hkeys : as.Pairwise fun a b => (key a).before (key b)) :
    Ranked score key (as.mergeSort fun a b => decide (score b ≤ score a)) := by
  have hle : ∀ a ∈ as, ∀ b ∈ as,
      decide (score b ≤ score a) = StableSort.descending (fun a => (score a).rank) a b := by
    intro a ha b hb
    simp [StableSort.descending, Binary.le_iff, hscore a ha, hscore b hb]
  refine (StableSort.pairwise_mergeSort key hle hkeys).imp_of_mem fun {a b} ha hb h => ?_
  have hna := hscore a (List.mem_mergeSort.1 ha)
  have hnb := hscore b (List.mem_mergeSort.1 hb)
  rcases h with hlt | ⟨heq, hbefore⟩
  · exact .inl (Binary.lt_iff.2 ⟨hnb, hna, hlt⟩)
  · exact .inr ⟨Binary.same_iff.2 ⟨hna, hnb, heq⟩, hbefore⟩

end Reasoning
