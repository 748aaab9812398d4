/-
  The orders of numbers and of texts.

  * `Binary.rank`: the place of a number among the others, `Binary.lt_iff` and `Binary.le_iff`:
    how numbers compare, apart from `nan`;
  * `Score.IsScore`: the numbers from zero to one, which `clamp` leaves as they are;
  * `Text.before_iff_lt`: texts are compared from their first byte on.
-/
import Reasoning.Score
import Reasoning.Text.Basic

namespace Reasoning

/-! ## Numbers -/

namespace Binary

variable {f : Format} {x y z : Binary f}

/-- The units of a number with their sign; an infinite one has as many as no finite one has. -/
def rank : Binary f → Int
  | nan => 0
  | infinite negative => signed negative (Nat.pow 2 f.top)
  | finite negative units _ => signed negative units

theorem signed_lt {m n : Nat} (h : m < n) (negative : Bool) :
    -(n : Int) < signed negative m ∧ signed negative m < n := by
  cases negative <;> simp only [signed, Bool.false_eq_true, if_true, if_false] <;> omega

/-- Numbers compare as their ranks do. -/
theorem order_eq (hx : x.isNaN = false) (hy : y.isNaN = false) :
    order x y = some (compare x.rank y.rank) := by
  have htop : (0 : Int) < Nat.pow 2 f.top := Int.natCast_pos.2 (Nat.two_pow_pos _)
  cases x with
  | nan => cases hx
  | infinite a =>
    cases y with
    | nan => cases hy
    | infinite b =>
      refine congrArg some (Eq.symm ?_)
      cases a <;> cases b
      · exact Int.compare_eq_eq.2 rfl
      · exact Int.compare_eq_gt.2 (show -(Nat.pow 2 f.top : Int) < Nat.pow 2 f.top by omega)
      · exact Int.compare_eq_lt.2 (show -(Nat.pow 2 f.top : Int) < Nat.pow 2 f.top by omega)
      · exact Int.compare_eq_eq.2 rfl
    | finite b n hn =>
      refine congrArg some (Eq.symm ?_)
      cases a
      · exact Int.compare_eq_gt.2 (signed_lt hn.1 b).2
      · exact Int.compare_eq_lt.2 (signed_lt hn.1 b).1
  | finite a m hm =>
    cases y with
    | nan => cases hy
    | infinite b =>
      refine congrArg some (Eq.symm ?_)
      cases b
      · exact Int.compare_eq_lt.2 (signed_lt hm.1 a).2
      · exact Int.compare_eq_gt.2 (signed_lt hm.1 a).1
    | finite b n hn => rfl

theorem order_eq_none (h : ¬ (x.isNaN = false ∧ y.isNaN = false)) : order x y = none := by
  cases x <;> cases y <;> simp_all [order, isNaN]

theorem lt_iff : x < y ↔ x.isNaN = false ∧ y.isNaN = false ∧ x.rank < y.rank := by
  show (order x y == some .lt) = true ↔ _
  by_cases h : x.isNaN = false ∧ y.isNaN = false
  · rw [order_eq h.1 h.2]
    simp [h, Int.compare_eq_lt]
  · rw [order_eq_none h, ← and_assoc, iff_false_intro h]
    simp

theorem le_iff : x ≤ y ↔ x.isNaN = false ∧ y.isNaN = false ∧ x.rank ≤ y.rank := by
  show (order x y == some .lt || order x y == some .eq) = true ↔ _
  by_cases h : x.isNaN = false ∧ y.isNaN = false
  · rw [order_eq h.1 h.2]
    simp [h, Int.compare_eq_lt, Int.le_iff_lt_or_eq]
  · rw [order_eq_none h, ← and_assoc, iff_false_intro h]
    simp

theorem le_refl (hx : x.isNaN = false) : x ≤ x := le_iff.2 ⟨hx, hx, Int.le_refl _⟩

theorem le_of_not_lt (hx : x.isNaN = false) (hy : y.isNaN = false) (h : ¬ x < y) : y ≤ x :=
  le_iff.2 ⟨hy, hx, Int.not_lt.1 fun hlt => h (lt_iff.2 ⟨hx, hy, hlt⟩)⟩

theorem not_lt_of_le (h : x ≤ y) : ¬ y < x := fun hlt =>
  Int.not_lt.2 (le_iff.1 h).2.2 (lt_iff.1 hlt).2.2

theorem le_of_lt (h : x < y) : x ≤ y := by
  obtain ⟨hx, hy, hlt⟩ := lt_iff.1 h
  exact le_iff.2 ⟨hx, hy, Int.le_of_lt hlt⟩

theorem lt_of_le_of_lt (h : x ≤ y) (h' : y < z) : x < z := by
  obtain ⟨hx, -, hle⟩ := le_iff.1 h
  obtain ⟨-, hz, hlt⟩ := lt_iff.1 h'
  exact lt_iff.2 ⟨hx, hz, Int.lt_of_le_of_lt hle hlt⟩

theorem ne_of_lt (h : x < y) : x ≠ y := by
  rintro rfl
  exact Int.lt_irrefl _ (lt_iff.1 h).2.2

end Binary

/-! ## Scores -/

namespace Score

/-- A number from zero to one. -/
def IsScore (x : Single) : Prop := 0 ≤ x ∧ x ≤ 1

instance (x : Single) : Decidable (IsScore x) := inferInstanceAs (Decidable (0 ≤ x ∧ x ≤ 1))

variable {x y : Single}

theorem rank_zero : (0 : Single).rank = 0 := by decide +kernel

theorem isScore_zero : IsScore 0 := by decide +kernel

theorem isScore_one : IsScore 1 := by decide +kernel

theorem IsScore.isNaN (h : IsScore x) : x.isNaN = false := (Binary.le_iff.1 h.1).2.1

theorem isScore_clamp (x : Single) : IsScore (clamp x) := by
  unfold clamp Binary.clamp
  by_cases hnan : x.isNaN
  · rw [if_pos hnan]
    exact isScore_zero
  · rw [if_neg hnan]
    have hx : x.isNaN = false := Bool.eq_false_iff.2 hnan
    split
    · exact isScore_zero
    · rename_i hlow
      split
      · exact isScore_one
      · rename_i hhigh
        exact ⟨Binary.le_of_not_lt hx isScore_zero.isNaN hlow,
          Binary.le_of_not_lt isScore_one.isNaN hx hhigh⟩

theorem IsScore.clamp (h : IsScore x) : clamp x = x := by
  unfold Score.clamp Binary.clamp
  rw [if_neg (Bool.eq_false_iff.1 h.isNaN), if_neg (Binary.not_lt_of_le h.1),
    if_neg (Binary.not_lt_of_le h.2)]

/-- Numbers below one stay apart from larger ones. -/
theorem clamp_lt_clamp (hx : 0 ≤ x) (hone : x < 1) (hxy : x < y) : clamp x < clamp y := by
  obtain ⟨-, hy, -⟩ := Binary.lt_iff.1 hxy
  have hpos : ¬ y < 0 := Binary.not_lt_of_le (Binary.le_of_lt (Binary.lt_of_le_of_lt hx hxy))
  rw [IsScore.clamp ⟨hx, Binary.le_of_lt hone⟩]
  unfold clamp Binary.clamp
  rw [if_neg (Bool.eq_false_iff.1 hy), if_neg hpos]
  split
  · exact hone
  · exact hxy

end Score

/-! ## Texts -/

namespace Text

/-- The lexicographic order. -/
theorem before_iff_lt {s t : Text} : s.before t = true ↔ s < t := by
  induction s generalizing t with
  | nil => cases t <;> simp [before]
  | cons a s ih =>
    cases t with
    | nil => simp [before]
    | cons b t =>
      rw [List.cons_lt_cons_iff, before, ← ih]
      simp [UInt8.lt_iff_toNat_lt]

theorem not_before_self (t : Text) : ¬ t.before t := fun h => List.lt_irrefl t (before_iff_lt.1 h)

theorem before_trans {s t u : Text} (h : s.before t) (h' : t.before u) : s.before u :=
  before_iff_lt.2 (List.lt_trans (before_iff_lt.1 h) (before_iff_lt.1 h'))

theorem before_of_not_before {s t : Text} (h : ¬ s.before t) (hne : s ≠ t) : t.before s := by
  rw [before_iff_lt, List.not_lt] at h
  rw [before_iff_lt]
  exact Std.lt_of_le_of_ne h hne.symm

end Text

end Reasoning
