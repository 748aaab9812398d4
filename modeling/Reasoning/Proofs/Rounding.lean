/-
  Rounding to the numbers of a format.

  Division to the nearest whole number never leaves an interval with whole ends, and it is monotone.
  The spacing of a format grows with the number that is rounded, so rounding to the format is
  monotone because it does not pass the powers of two, where the spacing changes.

  * `divNearest_le`, `le_divNearest`, `divNearest_error`, `divNearest_mono`: division;
  * `Format.round_le_two_pow`, `Format.two_pow_le_round`: powers of two are not passed;
  * `Format.round_mono`: rounding keeps the order;
  * `Format.round_error`: what is rounded off is little of the number;
  * `Format.fits_round`, `Binary.ofRatio_eq`: what comes of rounding is a number of the format.
-/
import Mathlib.Algebra.Order.Ring.Nat
import Mathlib.Tactic.Ring
import Reasoning.Numeric.Binary

namespace Reasoning

variable {num den num' den' k : Nat}

/-! ## Division to the nearest -/

/-- The quotient is cut, or the next whole number is nearer. -/
theorem divNearest_cases (hden : 0 < den) (num : Nat) : ∃ q r, num = q * den + r ∧ r < den ∧
    (divNearest num den = q ∧ 2 * r ≤ den ∨ divNearest num den = q + 1 ∧ den ≤ 2 * r) := by
  refine ⟨num / den, num % den, by rw [Nat.mul_comm, Nat.div_add_mod], Nat.mod_lt _ hden, ?_⟩
  unfold divNearest
  dsimp only
  split_ifs <;> omega

theorem divNearest_le (hden : 0 < den) (h : num ≤ k * den) : divNearest num den ≤ k := by
  obtain ⟨q, r, rfl, -, ⟨hd, -⟩ | ⟨hd, hr⟩⟩ := divNearest_cases hden num <;> rw [hd]
  · exact Nat.le_of_mul_le_mul_right (by omega) hden
  · exact Nat.lt_of_mul_lt_mul_right (a := den) (by omega)

theorem le_divNearest (hden : 0 < den) (h : k * den ≤ num) : k ≤ divNearest num den := by
  obtain ⟨q, r, rfl, hr, hd⟩ := divNearest_cases hden num
  have hk : k < q + 1 := Nat.lt_of_mul_lt_mul_right (a := den) (by rw [Nat.add_mul]; omega)
  omega

/-- The quotient is half of one away at most. -/
theorem divNearest_error (hden : 0 < den) (num : Nat) :
    2 * (divNearest num den * den) ≤ 2 * num + den ∧
      2 * num ≤ 2 * (divNearest num den * den) + den := by
  obtain ⟨q, r, rfl, hr, ⟨hd, _⟩ | ⟨hd, _⟩⟩ := divNearest_cases hden num <;> rw [hd]
  · omega
  · rw [Nat.add_mul]
    omega

theorem quotient_le_quotient (hden : 0 < den) (hden' : 0 < den') (h : num * den' ≤ num' * den) :
    num / den ≤ num' / den' := by
  refine (Nat.le_div_iff_mul_le hden').2 (Nat.le_of_mul_le_mul_right ?_ hden)
  calc num / den * den' * den
      = num / den * den * den' := by ring
    _ ≤ num * den' := Nat.mul_le_mul_right _ (Nat.div_mul_le_self ..)
    _ ≤ num' * den := h

theorem divNearest_mono (hden : 0 < den) (hden' : 0 < den') (h : num * den' ≤ num' * den) :
    divNearest num den ≤ divNearest num' den' := by
  have hnum := Nat.div_add_mod num den
  have hnum' := Nat.div_add_mod num' den'
  rcases Nat.eq_or_lt_of_le (quotient_le_quotient hden hden' h) with hq | hq
  · -- The quotients differ after the point only, and so much the more is rounded up.
    have hr : num % den * den' ≤ num' % den' * den := by
      rw [← hnum, ← hnum', Nat.add_mul, Nat.add_mul, hq] at h
      have : den * (num' / den') * den' = den' * (num' / den') * den := by ring
      omega
    have hle (hhalf : den ≤ 2 * (num % den)) : den' ≤ 2 * (num' % den') :=
      Nat.le_of_mul_le_mul_right (by
        calc den' * den = den * den' := Nat.mul_comm ..
          _ ≤ 2 * (num % den) * den' := Nat.mul_le_mul_right _ hhalf
          _ ≤ 2 * (num' % den') * den := by rw [Nat.mul_assoc, Nat.mul_assoc]; omega) hden
    have hlt (hhalf : den < 2 * (num % den)) : den' < 2 * (num' % den') :=
      Nat.lt_of_mul_lt_mul_right (a := den) (by
        calc den' * den = den * den' := Nat.mul_comm ..
          _ < 2 * (num % den) * den' := Nat.mul_lt_mul_of_pos_right hhalf hden'
          _ ≤ 2 * (num' % den') * den := by rw [Nat.mul_assoc, Nat.mul_assoc]; omega)
    unfold divNearest
    dsimp only
    rw [hq]
    split_ifs <;> omega
  · have hnext := (Nat.div_lt_iff_lt_mul hden).1 (Nat.lt_succ_self (num / den))
    calc divNearest num den
        ≤ num / den + 1 := divNearest_le hden hnext.le
      _ ≤ num' / den' := hq
      _ ≤ divNearest num' den' := le_divNearest hden' (Nat.div_mul_le_self ..)

/-! ## Binary digits -/

theorem bitLength_le_iff {n : Nat} : bitLength n ≤ k ↔ n < 2 ^ k := by
  unfold bitLength
  split
  · subst n
    simp
  · exact Nat.log2_lt ‹_›

theorem lt_bitLength_iff {n : Nat} : k < bitLength n ↔ 2 ^ k ≤ n := by
  rw [← Nat.not_le, bitLength_le_iff, Nat.not_lt]

namespace Format

variable {f : Format} {j : Nat}

/-- The binary places that are rounded away from so many units. -/
def places (f : Format) (n : Nat) : Nat := bitLength n - f.precision

theorem round_eq (f : Format) (num den : Nat) : f.round num den =
    2 ^ f.places (num / den) * divNearest num (den * 2 ^ f.places (num / den)) := rfl

/-- Rounding does not pass a power of two from below. -/
theorem round_le_two_pow (hf : 0 < f.precision) (hden : 0 < den) (h : num ≤ 2 ^ j * den) :
    f.round num den ≤ 2 ^ j := by
  rw [round_eq]
  have hplaces : f.places (num / den) ≤ j := by
    have hq : num / den < 2 ^ (j + 1) := calc
      num / den ≤ 2 ^ j := Nat.div_le_of_le_mul (by rwa [Nat.mul_comm])
      _ < 2 ^ (j + 1) := Nat.pow_lt_pow_right Nat.one_lt_two (Nat.lt_succ_self j)
    have := bitLength_le_iff.2 hq
    unfold places
    omega
  generalize f.places (num / den) = e at hplaces ⊢
  have hsplit : 2 ^ j = 2 ^ e * 2 ^ (j - e) := by rw [← Nat.pow_add]; congr 1; omega
  rw [hsplit] at h ⊢
  refine Nat.mul_le_mul_left _ (divNearest_le (Nat.mul_pos hden (Nat.two_pow_pos e)) ?_)
  calc num ≤ 2 ^ e * 2 ^ (j - e) * den := h
    _ = 2 ^ (j - e) * (den * 2 ^ e) := by ring

/-- Rounding does not pass a power of two from above. -/
theorem two_pow_le_round (hf : 0 < f.precision) (hden : 0 < den) (h : 2 ^ j * den ≤ num) :
    2 ^ j ≤ f.round num den := by
  have hq : 2 ^ j ≤ num / den := (Nat.le_div_iff_mul_le hden).2 h
  have hplaces : f.places (num / den) < bitLength (num / den) := by
    have := lt_bitLength_iff.2 hq
    unfold places
    omega
  have hcut : 2 ^ f.places (num / den) * den ≤ num :=
    (Nat.le_div_iff_mul_le hden).1 (lt_bitLength_iff.1 hplaces)
  rw [round_eq]
  generalize f.places (num / den) = e at hcut ⊢
  have hpos : 0 < den * 2 ^ e := Nat.mul_pos hden (Nat.two_pow_pos e)
  rcases Nat.le_total e j with hej | hje
  · have hsplit : 2 ^ j = 2 ^ e * 2 ^ (j - e) := by rw [← Nat.pow_add]; congr 1; omega
    rw [hsplit] at h ⊢
    refine Nat.mul_le_mul_left _ (le_divNearest hpos ?_)
    calc 2 ^ (j - e) * (den * 2 ^ e) = 2 ^ e * 2 ^ (j - e) * den := by ring
      _ ≤ num := h
  · -- The number is not less than its spacing, so at least one spacing is left of it.
    have hone : 1 ≤ divNearest num (den * 2 ^ e) :=
      le_divNearest hpos (by rwa [Nat.one_mul, Nat.mul_comm])
    calc 2 ^ j ≤ 2 ^ e := Nat.pow_le_pow_right Nat.two_pos hje
      _ ≤ 2 ^ e * divNearest num (den * 2 ^ e) := Nat.le_mul_of_pos_right _ hone

/-- **Rounding keeps the order of quotients.** -/
theorem round_mono (hf : 0 < f.precision) (hden : 0 < den) (hden' : 0 < den')
    (h : num * den' ≤ num' * den) : f.round num den ≤ f.round num' den' := by
  rcases Nat.lt_or_ge (bitLength (num / den)) (bitLength (num' / den')) with hlt | hge
  · -- A power of two lies between the numbers.
    obtain ⟨j, hj⟩ := Nat.exists_eq_add_of_lt hlt
    have hnum : num / den < 2 ^ (bitLength (num / den) + j) := bitLength_le_iff.1 (by omega)
    have hnum' : 2 ^ (bitLength (num / den) + j) ≤ num' / den' := lt_bitLength_iff.1 (by omega)
    exact (round_le_two_pow hf hden ((Nat.div_lt_iff_lt_mul hden).1 hnum).le).trans
      (two_pow_le_round hf hden' ((Nat.le_div_iff_mul_le hden').1 hnum'))
  · have hq := quotient_le_quotient hden hden' h
    have hlength : bitLength (num / den) = bitLength (num' / den') :=
      Nat.le_antisymm (bitLength_le_iff.2 (hq.trans_lt (bitLength_le_iff.1 le_rfl))) hge
    have hplaces : f.places (num / den) = f.places (num' / den') := by
      rw [places, places, hlength]
    rw [round_eq, round_eq, hplaces]
    generalize f.places (num' / den') = e
    refine Nat.mul_le_mul_left _ (divNearest_mono (Nat.mul_pos hden (Nat.two_pow_pos e))
      (Nat.mul_pos hden' (Nat.two_pow_pos e)) ?_)
    calc num * (den' * 2 ^ e) = num * den' * 2 ^ e := (Nat.mul_assoc ..).symm
      _ ≤ num' * den * 2 ^ e := Nat.mul_le_mul_right _ h
      _ = num' * (den * 2 ^ e) := Nat.mul_assoc ..

/-- A quotient that has all significant digits loses less than the last of them. -/
theorem round_error (hf : 0 < f.precision) (hden : 0 < den)
    (h : 2 ^ (f.precision - 1) * den ≤ num) :
    2 ^ f.precision * (f.round num den * den) ≤ 2 ^ f.precision * num + num ∧
      2 ^ f.precision * num ≤ 2 ^ f.precision * (f.round num den * den) + num := by
  have hdigits : f.precision - 1 < bitLength (num / den) :=
    lt_bitLength_iff.2 ((Nat.le_div_iff_mul_le hden).2 h)
  have hlast : 2 ^ (f.precision - 1) * (den * 2 ^ f.places (num / den)) ≤ num := by
    have hle : 2 ^ (f.precision - 1 + f.places (num / den)) ≤ num / den :=
      lt_bitLength_iff.1 (by unfold places; omega)
    calc 2 ^ (f.precision - 1) * (den * 2 ^ f.places (num / den))
        = 2 ^ (f.precision - 1 + f.places (num / den)) * den := by rw [Nat.pow_add]; ring
      _ ≤ num := (Nat.le_div_iff_mul_le hden).1 hle
  have hpow : 2 ^ f.precision = 2 * 2 ^ (f.precision - 1) := by
    rw [← Nat.pow_succ']
    congr 1
    omega
  rw [round_eq, hpow]
  generalize f.places (num / den) = e at hlast ⊢
  generalize 2 ^ (f.precision - 1) = half at hlast ⊢
  obtain ⟨habove, hbelow⟩ := divNearest_error (Nat.mul_pos hden (Nat.two_pow_pos e)) num
  generalize divNearest num (den * 2 ^ e) = d at habove hbelow ⊢
  constructor
  · calc 2 * half * (2 ^ e * d * den) = half * (2 * (d * (den * 2 ^ e))) := by ring
      _ ≤ half * (2 * num + den * 2 ^ e) := Nat.mul_le_mul_left _ habove
      _ = 2 * half * num + half * (den * 2 ^ e) := by ring
      _ ≤ 2 * half * num + num := Nat.add_le_add_left hlast _
  · calc 2 * half * num = half * (2 * num) := by ring
      _ ≤ half * (2 * (d * (den * 2 ^ e)) + den * 2 ^ e) := Nat.mul_le_mul_left _ hbelow
      _ = 2 * half * (2 ^ e * d * den) + half * (den * 2 ^ e) := by ring
      _ ≤ 2 * half * (2 ^ e * d * den) + num := Nat.add_le_add_left hlast _

/-- What comes of rounding is a number of the format if it is not too large. -/
theorem fits_round (hf : 0 < f.precision) (hden : 0 < den)
    (htop : f.round num den < 2 ^ f.top) : f.Fits (f.round num den) := by
  refine ⟨htop, Nat.mod_eq_zero_of_dvd ?_⟩
  show 2 ^ f.places (f.round num den) ∣ f.round num den
  have hplaces : bitLength (num / den) ≤ f.places (num / den) + f.precision := by
    unfold places
    omega
  have hle : divNearest num (den * 2 ^ f.places (num / den)) ≤ 2 ^ f.precision := by
    have hlt := (Nat.div_lt_iff_lt_mul hden).1 (bitLength_le_iff.1 hplaces)
    refine divNearest_le (Nat.mul_pos hden (Nat.two_pow_pos _)) ?_
    calc num ≤ 2 ^ (f.places (num / den) + f.precision) * den := hlt.le
      _ = 2 ^ f.precision * (den * 2 ^ f.places (num / den)) := by rw [Nat.pow_add]; ring
  rw [round_eq]
  generalize f.places (num / den) = e at hle ⊢
  generalize divNearest num (den * 2 ^ e) = d at hle ⊢
  rcases Nat.lt_or_eq_of_le hle with hlt | rfl
  · have hlength : bitLength (2 ^ e * d) ≤ e + f.precision := bitLength_le_iff.2 (by
      rw [Nat.pow_add]
      exact Nat.mul_lt_mul_of_pos_left hlt (Nat.two_pow_pos e))
    exact (Nat.pow_dvd_pow 2 (by unfold places; omega)).trans (Nat.dvd_mul_right ..)
  · rw [← Nat.pow_add]
    have hlength : bitLength (2 ^ (e + f.precision)) ≤ e + f.precision + 1 :=
      bitLength_le_iff.2 (Nat.pow_lt_pow_right Nat.one_lt_two (Nat.lt_succ_self _))
    exact Nat.pow_dvd_pow 2 (by unfold places; omega)

end Format

/-! ## Rounded quotients -/

namespace Binary

variable {f : Format} {j : Nat}

theorem ofRatio_zero (hden : 0 < den) :
    (ofRatio false 0 den : Binary f) = finite false 0 f.fits_zero := by
  have hround : f.round 0 den = 0 := by
    have hnone : divNearest 0 (den * 2 ^ f.places (0 / den)) = 0 :=
      Nat.eq_zero_of_le_zero
        (divNearest_le (Nat.mul_pos hden (Nat.two_pow_pos _)) (Nat.zero_le _))
    rw [Format.round_eq, hnone, Nat.mul_zero]
  unfold ofRatio
  simp only [hround]
  exact dif_pos f.fits_zero

/-- A quotient below the largest power of two of the format stays finite. -/
theorem ofRatio_eq (hf : 0 < f.precision) (hden : 0 < den) (hj : j < f.top)
    (h : num ≤ 2 ^ j * den) : ∃ hfits, (ofRatio false num den : Binary f) =
      finite false (f.round num den) hfits := by
  have hround := Format.round_le_two_pow hf hden h
  have hfits : f.Fits (f.round num den) := Format.fits_round hf hden
    (hround.trans_lt (Nat.pow_lt_pow_right Nat.one_lt_two hj))
  exact ⟨hfits, dif_pos hfits⟩

variable {m n : Nat} {hm : f.Fits m} {hn : f.Fits n}

theorem finite_mul :
    (finite false m hm * finite false n hn : Binary f) = ofRatio false (m * n) f.one := rfl

theorem finite_div (h : n ≠ 0) :
    (finite false m hm / finite false n hn : Binary f) = ofRatio false (m * f.one) n := if_neg h

theorem finite_add :
    (finite false m hm + finite false n hn : Binary f) = ofRatio false (m + n) 1 := by
  show (if (m + n : ℤ) = 0 then zero false else
    ofRatio ((m + n : ℤ) < 0) (m + n : ℤ).natAbs 1) = _
  split
  · rw [show m + n = 0 by omega, ofRatio_zero Nat.one_pos]
    rfl
  · rw [decide_eq_false (by omega), show (m + n : ℤ).natAbs = m + n by omega]

/-- A part of a whole, both rounded, is rounded to one at most. -/
theorem ofNat_div_eq (hf : 0 < f.precision) (hj : j + f.scale < f.top) (hmn : m ≤ n) (hn : 0 < n)
    (hsize : n < 2 ^ j) : ∃ k h, (ofNat m / ofNat n : Binary f) = finite false k h ∧ k ≤ f.one := by
  have hone : 0 < f.one := Nat.two_pow_pos _
  have hfinite (i : Nat) (hi : i ≤ n) : ∃ h, (ofNat i : Binary f) =
      finite false (f.round (i * f.one) 1) h := by
    refine ofRatio_eq hf Nat.one_pos hj ?_
    rw [Nat.mul_one, Nat.pow_add]
    exact Nat.mul_le_mul_right _ (hi.trans hsize.le)
  obtain ⟨_, hpart⟩ := hfinite m hmn
  obtain ⟨_, hwhole⟩ := hfinite n le_rfl
  have hpos : 2 ^ f.scale ≤ f.round (n * f.one) 1 :=
    Format.two_pow_le_round hf Nat.one_pos (by
      rw [Nat.mul_one]
      exact Nat.le_mul_of_pos_left _ hn)
  have hle : f.round (m * f.one) 1 * f.one ≤ 2 ^ f.scale * f.round (n * f.one) 1 := by
    rw [Nat.mul_comm]
    exact Nat.mul_le_mul_left _ (Format.round_mono hf Nat.one_pos Nat.one_pos
      (Nat.mul_le_mul_right _ (Nat.mul_le_mul_right _ hmn)))
  have hround : 0 < f.round (n * f.one) 1 := (Nat.two_pow_pos _).trans_le hpos
  obtain ⟨hfits, hratio⟩ := ofRatio_eq hf hround (by omega) hle
  refine ⟨_, hfits, ?_, Format.round_le_two_pow hf hround hle⟩
  rw [hpart, hwhole, finite_div hround.ne', hratio]

end Binary

end Reasoning
