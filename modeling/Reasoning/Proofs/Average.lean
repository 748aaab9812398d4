/-
  Averages of scores, exactly.

  * `Binary.value`: the rational number that a finite number is, and `Score.IsScore.value_mem`:
    that of a score lies between zero and one;
  * `RunningAverage.toNat_count`: a running average counts the numbers that it was given;
  * `RunningAverage.average_eq`: followed step by step with rational numbers, it is the mean of
    these numbers, each clamped;
  * `exactAverage`, `exactAverage_eq`: the same for scores in single precision.
-/
import Mathlib.Algebra.BigOperators.Group.List.Basic
import Mathlib.Algebra.Order.BigOperators.Group.List
import Mathlib.Algebra.Order.Field.Basic
import Mathlib.Data.List.Induction
import Mathlib.Data.Rat.Cast.Order
import Mathlib.Tactic.FieldSimp
import Mathlib.Tactic.Linarith
import Reasoning.Metrics
import Reasoning.Proofs.Order

namespace Reasoning

/-! ## Values -/

/-- The rational number that a finite number is; what is not finite counts as zero. -/
def Binary.value {f : Format} : Binary f → ℚ
  | finite negative units _ => signed negative units / f.one
  | _ => 0

namespace Score

variable {x : Single}

theorem rank_one : (1 : Single).rank = Format.single.one := by decide +kernel

/-- A score is finite, and has at most as many units as one. -/
theorem IsScore.rank_mem (h : IsScore x) : 0 ≤ x.rank ∧ x.rank ≤ Format.single.one := by
  obtain ⟨-, -, hlow⟩ := Binary.le_iff.1 h.1
  obtain ⟨-, -, hhigh⟩ := Binary.le_iff.1 h.2
  rw [rank_zero] at hlow
  rw [rank_one] at hhigh
  exact ⟨hlow, hhigh⟩

theorem IsScore.value_eq (h : IsScore x) : x.value = x.rank / Format.single.one := by
  obtain ⟨hlow, hhigh⟩ := h.rank_mem
  cases x with
  | nan => simp [Binary.value, Binary.rank]
  | finite negative units _ => rfl
  | infinite negative =>
    -- An infinite number has more units than one, or fewer than none.
    exfalso
    cases negative
    · revert hhigh
      decide +kernel
    · revert hlow
      decide +kernel

theorem IsScore.value_mem (h : IsScore x) : 0 ≤ x.value ∧ x.value ≤ 1 := by
  obtain ⟨hlow, hhigh⟩ := h.rank_mem
  have hone : (0 : ℚ) < Format.single.one := by exact_mod_cast Nat.two_pow_pos _
  rw [h.value_eq]
  refine ⟨div_nonneg (by exact_mod_cast hlow) hone.le, ?_⟩
  rw [div_le_one hone]
  exact_mod_cast hhigh

end Score

/-! ## Running averages -/

namespace RunningAverage

section
variable {α : Type} [Scalar α]

theorem foldl_add_concat (xs : List α) (x : α) :
    (xs ++ [x]).foldl add (empty : RunningAverage α) = (xs.foldl add empty).add x := by
  rw [List.foldl_append]
  rfl

theorem toNat_count {xs : List α} (h : xs.length < 2 ^ 64) :
    (xs.foldl add (empty : RunningAverage α)).count.toNat = xs.length := by
  induction xs using List.reverseRecOn with
  | nil => rfl
  | append_singleton xs x ih =>
    rw [List.length_append, List.length_singleton] at h ⊢
    have ih := ih (by omega)
    rw [foldl_add_concat]
    show ((xs.foldl add empty).count + 1).toNat = _
    rw [UInt64.toNat_add, ih]
    exact Nat.mod_eq_of_lt h

end

variable {xs : List ℚ} {x : ℚ}

theorem clamp_rat (x : ℚ) : Scalar.clamp x = if x < 0 then 0 else if 1 < x then 1 else x := by
  unfold Scalar.clamp
  simp [Scalar.less, Scalar.undefined, Scalar.zero, Scalar.one, Scalar.ofNat]

theorem clamp_mem (x : ℚ) : 0 ≤ Scalar.clamp x ∧ Scalar.clamp x ≤ 1 := by
  rw [clamp_rat]
  split
  · simp
  · split
    · simp
    · constructor <;> linarith

theorem clamp_eq_self (hlow : 0 ≤ x) (hhigh : x ≤ 1) : Scalar.clamp x = x := by
  rw [clamp_rat, if_neg hlow.not_gt, if_neg hhigh.not_gt]

theorem average_add (a : RunningAverage ℚ) (x : ℚ) :
    (a.add x).average = a.average + (Scalar.clamp x - a.average) / ((a.add x).count.toNat : ℚ) :=
  rfl

/-- The average times the number of numbers is their sum. -/
theorem average_mul_length (h : xs.length < 2 ^ 64) :
    (xs.foldl add (empty : RunningAverage ℚ)).average * xs.length = (xs.map Scalar.clamp).sum := by
  induction xs using List.reverseRecOn with
  | nil => simp
  | append_singleton xs x ih =>
    have hcount := toNat_count (α := ℚ) h
    rw [List.length_append, List.length_singleton] at h
    have ih := ih (by omega)
    rw [foldl_add_concat] at hcount ⊢
    rw [average_add, hcount, List.map_append, List.sum_append, ← ih]
    simp only [List.length_append, List.length_singleton, List.map_singleton, List.sum_singleton]
    push_cast
    have : (xs.length : ℚ) + 1 ≠ 0 := by positivity
    field_simp
    linarith

/-- The average is the mean of the numbers clamped. -/
theorem average_eq (h : xs.length < 2 ^ 64) :
    (xs.foldl add (empty : RunningAverage ℚ)).average =
      (xs.map Scalar.clamp).sum / xs.length := by
  cases xs with
  | nil => simp [empty, Scalar.zero, Scalar.ofNat]
  | cons x xs =>
    rw [← average_mul_length h, mul_div_cancel_right₀]
    simp only [List.length_cons]
    positivity

/-- The average is a score. -/
theorem average_mem (h : xs.length < 2 ^ 64) :
    0 ≤ (xs.foldl add (empty : RunningAverage ℚ)).average ∧
      (xs.foldl add (empty : RunningAverage ℚ)).average ≤ 1 := by
  have hlow : 0 ≤ (xs.map Scalar.clamp).sum := List.sum_nonneg fun y hy => by
    obtain ⟨x, -, rfl⟩ := List.mem_map.1 hy
    exact (clamp_mem x).1
  have hhigh : (xs.map Scalar.clamp).sum ≤ xs.length := by
    have := List.sum_le_card_nsmul (xs.map Scalar.clamp) 1 fun y hy => by
      obtain ⟨x, -, rfl⟩ := List.mem_map.1 hy
      exact (clamp_mem x).2
    simpa using this
  rw [average_eq h]
  exact ⟨by positivity, div_le_one_of_le₀ hhigh (by positivity)⟩

end RunningAverage

/-! ## Averages of scores -/

/-- What a running average of confidences comes to without rounding. -/
def exactAverage (xs : List Single) : RunningAverage ℚ :=
  (xs.map fun x => (Score.clamp x).value).foldl RunningAverage.add .empty

/-- It is their mean, each clamped, and lies between zero and one. -/
theorem exactAverage_eq {xs : List Single} (h : xs.length < 2 ^ 64) :
    (exactAverage xs).average = (xs.map fun x => (Score.clamp x).value).sum / xs.length ∧
    0 ≤ (exactAverage xs).average ∧ (exactAverage xs).average ≤ 1 := by
  have hlength : (xs.map fun x => (Score.clamp x).value).length < 2 ^ 64 := by
    rwa [List.length_map]
  have hself : (xs.map fun x => (Score.clamp x).value).map Scalar.clamp =
      xs.map fun x => (Score.clamp x).value := by
    rw [List.map_map]
    refine List.map_congr_left fun x _ => ?_
    obtain ⟨hlow, hhigh⟩ := (Score.isScore_clamp x).value_mem
    exact RunningAverage.clamp_eq_self hlow hhigh
  unfold exactAverage
  refine ⟨?_, RunningAverage.average_mem hlength⟩
  rw [RunningAverage.average_eq hlength, hself, List.length_map]

end Reasoning
