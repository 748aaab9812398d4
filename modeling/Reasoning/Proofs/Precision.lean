/-
  Calculations in single precision, followed exactly.

  Each rounding of a number takes a small share of it away, or adds as much.  So a calculation of
  numbers without a sign comes to its exact result up to as many such shares as it has roundings, if
  no number on the way is too small or too large for the format.

  * `Near`: numbers that a count of roundings lies between;
  * `Modest`: numbers of moderate size;
  * `Single.Approx`: a number that stands for an exact one after some roundings;
  * `Single.Approx.ofNat`, `.mul`, `.div`, `.add`: how the operations add roundings to it;
  * `Single.Approx.lt`: exact numbers that are far enough apart are told apart.
-/
import Mathlib.Tactic.NormNum
import Reasoning.Proofs.Average
import Reasoning.Proofs.Rounding

namespace Reasoning

variable {j k b c : ℕ} {u v w : ℚ}

/-! ## Roundings -/

/-- What is left of a number when one rounding takes its share. -/
def kept : ℚ := 1 - 1 / 2 ^ 24

theorem kept_pos : 0 < kept := by norm_num [kept]

theorem kept_le_one : kept ≤ 1 := by norm_num [kept]

theorem kept_pow_pos (k : ℕ) : 0 < kept ^ k := pow_pos kept_pos k

/-- A few roundings do not halve a number. -/
theorem half_le_kept_pow (hk : k ≤ 8) : 1 / 2 ≤ kept ^ k :=
  calc (1 / 2 : ℚ) ≤ kept ^ 8 := by norm_num [kept]
    _ ≤ kept ^ k := pow_le_pow_of_le_one kept_pos.le kept_le_one hk

/-- Either number is left of the other one when `k` roundings take their shares. -/
structure Near (k : ℕ) (v w : ℚ) : Prop where
  left : v * kept ^ k ≤ w
  right : w * kept ^ k ≤ v

namespace Near

theorem refl (v : ℚ) : Near 0 v v := ⟨by simp, by simp⟩

theorem trans (hv : Near j u v) (hw : Near k v w) : Near (j + k) u w := by
  constructor
  · calc u * kept ^ (j + k) = u * kept ^ j * kept ^ k := by rw [pow_add, mul_assoc]
      _ ≤ v * kept ^ k := mul_le_mul_of_nonneg_right hv.left (kept_pow_pos k).le
      _ ≤ w := hw.left
  · calc w * kept ^ (j + k) = w * kept ^ k * kept ^ j := by rw [pow_add]; ring
      _ ≤ v * kept ^ j := mul_le_mul_of_nonneg_right hw.right (kept_pow_pos j).le
      _ ≤ u := hv.right

variable {v' w' : ℚ}

theorem mul (hv : 0 ≤ v) (hv' : 0 ≤ v') (hw : 0 ≤ w) (hw' : 0 ≤ w') (h : Near j v w)
    (h' : Near k v' w') : Near (j + k) (v * v') (w * w') := by
  have hpow := (kept_pow_pos k).le
  constructor
  · calc v * v' * kept ^ (j + k) = v * kept ^ j * (v' * kept ^ k) := by rw [pow_add]; ring
      _ ≤ w * w' := mul_le_mul h.left h'.left (mul_nonneg hv' hpow) hw
  · calc w * w' * kept ^ (j + k) = w * kept ^ j * (w' * kept ^ k) := by rw [pow_add]; ring
      _ ≤ v * v' := mul_le_mul h.right h'.right (mul_nonneg hw' hpow) hv

theorem inv (hv : 0 < v) (hw : 0 < w) (h : Near k v w) : Near k v⁻¹ w⁻¹ := by
  constructor
  · rw [inv_mul_le_iff₀ hv, ← div_eq_mul_inv, le_div_iff₀ hw, mul_comm]
    exact h.right
  · rw [inv_mul_le_iff₀ hw, ← div_eq_mul_inv, le_div_iff₀ hv, mul_comm]
    exact h.left

theorem div_right (h : Near k v w) (hu : 0 < u) : Near k (v / u) (w / u) := by
  constructor
  · rw [div_mul_eq_mul_div]
    exact div_le_div_of_nonneg_right h.left hu.le
  · rw [div_mul_eq_mul_div]
    exact div_le_div_of_nonneg_right h.right hu.le

theorem add (h : Near k v w) (h' : Near k v' w') : Near k (v + v') (w + w') :=
  ⟨by rw [add_mul]; exact add_le_add h.left h'.left,
    by rw [add_mul]; exact add_le_add h.right h'.right⟩

end Near

/-! ## Sizes -/

/-- Zero, or a number that differs from one by `b` binary places at most. -/
def Modest (b : ℕ) (v : ℚ) : Prop := v = 0 ∨ 1 ≤ v * 2 ^ b ∧ v ≤ 2 ^ b

namespace Modest

theorem nonneg (h : Modest b v) : 0 ≤ v := by
  rcases h with rfl | ⟨h, -⟩
  · exact le_rfl
  · have : 0 < v * 2 ^ b := one_pos.trans_le h
    exact (pos_of_mul_pos_left this (by positivity)).le

theorem mono (h : Modest b v) (hbc : b ≤ c) : Modest c v := by
  have hpow : (2 : ℚ) ^ b ≤ 2 ^ c := pow_le_pow_right₀ (by norm_num) hbc
  refine h.imp_right fun ⟨hlow, hhigh⟩ => ⟨hlow.trans ?_, hhigh.trans hpow⟩
  exact mul_le_mul_of_nonneg_left hpow h.nonneg

theorem natCast {n : ℕ} (h : n ≤ 2 ^ b) : Modest b n := by
  rcases Nat.eq_zero_or_pos n with rfl | hn
  · exact .inl Nat.cast_zero
  · refine .inr ⟨one_le_mul_of_one_le_of_one_le (by exact_mod_cast hn) ?_, by exact_mod_cast h⟩
    exact one_le_pow₀ (by norm_num)

theorem mul (hv : Modest b v) (hw : Modest c w) : Modest (b + c) (v * w) := by
  have hnonneg := hv.nonneg
  rcases hv with rfl | ⟨hlow, hhigh⟩
  · exact .inl (zero_mul w)
  have hnonneg' := hw.nonneg
  rcases hw with rfl | ⟨hlow', hhigh'⟩
  · exact .inl (mul_zero v)
  refine .inr ⟨?_, ?_⟩
  · calc 1 ≤ v * 2 ^ b * (w * 2 ^ c) := one_le_mul_of_one_le_of_one_le hlow hlow'
      _ = v * w * 2 ^ (b + c) := by rw [pow_add]; ring
  · rw [pow_add]
    exact mul_le_mul hhigh hhigh' hnonneg' (by positivity)

theorem inv (h : Modest b v) : Modest b v⁻¹ := by
  rcases h with rfl | ⟨hlow, hhigh⟩
  · exact .inl inv_zero
  have hv : 0 < v := pos_of_mul_pos_left (one_pos.trans_le hlow) (by positivity)
  refine .inr ⟨?_, ?_⟩
  · rwa [inv_mul_eq_div, one_le_div hv]
  · rwa [inv_le_iff_one_le_mul₀ hv, mul_comm]

theorem add (hv : Modest b v) (hw : Modest b w) : Modest (b + 1) (v + w) := by
  have hmono := hw.mono (Nat.le_succ b)
  have hnonneg := hw.nonneg
  rcases hv with rfl | ⟨hlow, hhigh⟩
  · rwa [zero_add]
  rcases hw with rfl | ⟨-, hhigh'⟩
  · rw [add_zero]
    exact Modest.mono (.inr ⟨hlow, hhigh⟩) (Nat.le_succ b)
  rw [Modest, pow_succ]
  refine .inr ⟨?_, by linarith⟩
  have hpow : (0 : ℚ) < 2 ^ b := by positivity
  nlinarith

end Modest

/-! ## Numbers -/

theorem Format.one_single : (Format.single.one : ℚ) = 2 ^ 149 := by
  show ((Nat.pow 2 149 : ℕ) : ℚ) = 2 ^ 149
  exact Nat.cast_pow ..

theorem Format.one_single_pos : (0 : ℚ) < Format.single.one := by
  rw [one_single]
  positivity

/-- A quotient with all significant digits is rounded once. -/
theorem near_round {num den : ℕ} (hden : 0 < den) (h : 2 ^ 23 * den ≤ num) :
    Near 1 (Format.single.round num den) (num / den) := by
  obtain ⟨habove, hbelow⟩ := Format.round_error (f := .single) (by decide) hden h
  have habove : (2 : ℚ) ^ 24 * (Format.single.round num den * den) ≤ 2 ^ 24 * num + num := by
    exact_mod_cast habove
  have hbelow : (2 : ℚ) ^ 24 * num ≤ 2 ^ 24 * (Format.single.round num den * den) + num := by
    exact_mod_cast hbelow
  have hden : (0 : ℚ) < den := by exact_mod_cast hden
  have hnum : (0 : ℚ) ≤ num := Nat.cast_nonneg num
  constructor
  · rw [pow_one, le_div_iff₀ hden, mul_right_comm, kept]
    linarith
  · rw [pow_one, div_mul_eq_mul_div, div_le_iff₀ hden, kept]
    linarith

namespace Single

variable {x y : Single} {m n num den : ℕ}

/-- The number stands for `v` after `k` roundings, and `v` has a moderate size. -/
structure Approx (k b : ℕ) (x : Single) (v : ℚ) : Prop where
  units : ∃ n h, x = .finite false n h ∧ Near k (n / Format.single.one) v
  modest : Modest b v

/-- One more rounding makes a number of the format of a quotient. -/
theorem approx_ofRatio (hden : 0 < den) (hu : (num : ℚ) / den = u * Format.single.one)
    (h : Near k u v) (hv : Modest b v) (hk : k ≤ 8) (hb : b ≤ 100) :
    Approx (k + 1) b (.ofRatio false num den) v := by
  refine ⟨?_, hv⟩
  have hden' : (0 : ℚ) < den := by exact_mod_cast hden
  have hu0 : 0 ≤ u := nonneg_of_mul_nonneg_left (hu ▸ by positivity) Format.one_single_pos
  have hhalf := half_le_kept_pow hk
  have hdouble : u ≤ 2 * v := by
    have := mul_le_mul_of_nonneg_left hhalf hu0
    linarith [h.right, h.left]
  rcases hv.mono hb with rfl | ⟨hlow, hhigh⟩
  · have hnum : num = 0 := by
      rw [show u = 0 by linarith, zero_mul, div_eq_zero_iff] at hu
      exact_mod_cast hu.resolve_right hden'.ne'
    subst hnum
    refine ⟨0, Format.fits_zero _, Binary.ofRatio_zero hden, ?_⟩
    rw [Nat.cast_zero, zero_div]
    exact ⟨by rw [zero_mul], by rw [zero_mul]⟩
  · have hhalved : v * (1 / 2) ≤ u :=
      (mul_le_mul_of_nonneg_left hhalf hv.nonneg).trans h.right
    obtain ⟨hsmall, hlarge⟩ : (2 : ℚ) ^ 23 ≤ num / den ∧ (num : ℚ) / den ≤ 2 ^ 256 := by
      rw [hu, Format.one_single]
      constructor <;> linarith
    rw [le_div_iff₀ hden'] at hsmall
    rw [div_le_iff₀ hden'] at hlarge
    have htop : 256 < Format.single.top := by decide
    obtain ⟨hfits, hratio⟩ := Binary.ofRatio_eq (by decide) hden htop (by exact_mod_cast hlarge)
    refine ⟨_, hfits, hratio, ?_⟩
    have hround := (near_round hden (by exact_mod_cast hsmall)).div_right Format.one_single_pos
    rw [hu, mul_div_cancel_right₀ _ Format.one_single_pos.ne'] at hround
    rw [Nat.add_comm]
    exact hround.trans h

namespace Approx

theorem ofNat {n : ℕ} (hn : n ≤ 2 ^ b) (hb : b ≤ 100) : Approx 1 b (.ofNat n) n := by
  refine approx_ofRatio (k := 0) Nat.one_pos ?_ (.refl _) (.natCast hn) (Nat.zero_le _) hb
  rw [Nat.cast_mul, Nat.cast_one, div_one]

theorem mul (hx : Approx j b x v) (hy : Approx k c y w) (hk : j + k ≤ 8) (hb : b + c ≤ 100) :
    Approx (j + k + 1) (b + c) (x * y) (v * w) := by
  obtain ⟨m, hm, rfl, hv⟩ := hx.units
  obtain ⟨n, hn, rfl, hw⟩ := hy.units
  have hnear := hv.mul (by positivity) (by positivity) hx.modest.nonneg hy.modest.nonneg hw
  rw [Binary.finite_mul]
  refine approx_ofRatio (Nat.two_pow_pos _) ?_ hnear (hx.modest.mul hy.modest) hk hb
  rw [Nat.cast_mul]
  have := Format.one_single_pos.ne'
  field_simp

theorem div (hx : Approx j b x v) (hy : Approx k c y w) (hw : w ≠ 0) (hk : j + k ≤ 8)
    (hb : b + c ≤ 100) : Approx (j + k + 1) (b + c) (x / y) (v / w) := by
  obtain ⟨m, hm, rfl, hnear⟩ := hx.units
  obtain ⟨n, hn, rfl, hnear'⟩ := hy.units
  have hw : 0 < w := hy.modest.nonneg.lt_of_ne' hw
  have hn0 : n ≠ 0 := by
    rintro rfl
    have := hnear'.right
    rw [Nat.cast_zero, zero_div] at this
    exact absurd (mul_pos hw (kept_pow_pos k)) this.not_gt
  have hn : (0 : ℚ) < n := by exact_mod_cast Nat.pos_of_ne_zero hn0
  have hquotient := hnear.mul (by positivity) (inv_nonneg.2 (div_pos hn Format.one_single_pos).le)
    hx.modest.nonneg (inv_nonneg.2 hw.le) (hnear'.inv (div_pos hn Format.one_single_pos) hw)
  rw [Binary.finite_div hn0, div_eq_mul_inv]
  refine approx_ofRatio (Nat.pos_of_ne_zero hn0) ?_ hquotient (hx.modest.mul hy.modest.inv) hk hb
  rw [Nat.cast_mul]
  have := Format.one_single_pos.ne'
  field_simp

theorem add (hx : Approx k b x v) (hy : Approx k b y w) (hk : k ≤ 8) (hb : b + 1 ≤ 100) :
    Approx (k + 1) (b + 1) (x + y) (v + w) := by
  obtain ⟨m, hm, rfl, hv⟩ := hx.units
  obtain ⟨n, hn, rfl, hw⟩ := hy.units
  rw [Binary.finite_add]
  refine approx_ofRatio Nat.one_pos ?_ (hv.add hw) (hx.modest.add hy.modest) hk hb
  rw [Nat.cast_add, Nat.cast_one, div_one, ← add_div, div_mul_cancel₀ _ Format.one_single_pos.ne']

theorem nonneg (hx : Approx k b x v) : 0 ≤ x := by
  obtain ⟨m, hm, rfl, -⟩ := hx.units
  refine Binary.le_iff.2 ⟨Score.isScore_zero.isNaN, rfl, ?_⟩
  rw [Score.rank_zero]
  exact Int.natCast_nonneg m

/-- Numbers are told apart if their exact values differ by more than their roundings. -/
theorem lt (hx : Approx j b x v) (hy : Approx k c y w) (h : v < w * kept ^ (j + k)) : x < y := by
  obtain ⟨m, hm, rfl, hv⟩ := hx.units
  obtain ⟨n, hn, rfl, hw⟩ := hy.units
  have hlt : (m : ℚ) / Format.single.one * kept ^ j < n / Format.single.one * kept ^ j := by
    calc (m : ℚ) / Format.single.one * kept ^ j ≤ v := hv.left
      _ < w * kept ^ (j + k) := h
      _ = w * kept ^ k * kept ^ j := by rw [pow_add]; ring
      _ ≤ n / Format.single.one * kept ^ j :=
        mul_le_mul_of_nonneg_right hw.right (kept_pow_pos j).le
  rw [mul_lt_mul_iff_left₀ (kept_pow_pos j),
    div_lt_div_iff_of_pos_right Format.one_single_pos] at hlt
  exact Binary.lt_iff.2 ⟨rfl, rfl, Int.ofNat_lt.2 (by exact_mod_cast hlt)⟩

end Approx

/-- A part is no more than the whole. -/
theorem ofNat_div_le_one (hmn : m ≤ n) (hn : 0 < n) (hsize : n < 2 ^ 64) :
    (.ofNat m / .ofNat n : Single) ≤ 1 := by
  obtain ⟨k, hk, he, hle⟩ :=
    Binary.ofNat_div_eq (f := .single) (by decide) (by decide : 64 + 149 < 277) hmn hn hsize
  rw [he]
  refine Binary.le_iff.2 ⟨rfl, Score.isScore_one.isNaN, ?_⟩
  rw [Score.rank_one]
  exact Int.ofNat_le.2 hle

end Single

end Reasoning
