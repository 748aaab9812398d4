/-
  Numbers in a wider format and back.

  A format that is wider than another one has its numbers among its own.  So a number that is
  written in the wider format is the same number there, and nothing is lost on the way back.

  * `Format.Within`: a format whose numbers belong to another one, `Format.single_within_double`;
  * `Format.round_of_fits`: a number of the format is not rounded;
  * `Binary.convert_convert`: there and back.
-/
import Reasoning.Proofs.Rounding

namespace Reasoning

variable {f g : Format} {n den : Nat}

namespace Format

/-- The format has no more significant bits than the other one, no smaller units, and no larger
    numbers. -/
structure Within (f g : Format) : Prop where
  precision : f.precision ≤ g.precision
  scale : f.scale ≤ g.scale
  top : f.top + (g.scale - f.scale) ≤ g.top

theorem single_within_double : single.Within double := by
  constructor <;> decide

/-- A number of the format is not rounded. -/
theorem round_of_fits (hn : f.Fits n) (hden : 0 < den) : f.round (n * den) den = n := by
  have hspacing : n = 2 ^ f.places n * (n / 2 ^ f.places n) :=
    (Nat.mul_div_cancel' (Nat.dvd_of_mod_eq_zero hn.2)).symm
  rw [round_eq, Nat.mul_div_cancel _ hden]
  generalize 2 ^ f.places n = s at hspacing ⊢
  generalize n / s = q at hspacing
  subst hspacing
  cases Nat.eq_zero_or_pos s with
  | inl hs => rw [hs, Nat.zero_mul, Nat.zero_mul]
  | inr hs =>
    have hpos : 0 < den * s := Nat.mul_pos hden hs
    have hnum : s * q * den = q * (den * s) := by ring
    rw [hnum, Nat.le_antisymm (divNearest_le hpos le_rfl) (le_divNearest hpos le_rfl)]

/-- A number of a format, in the smaller units of a wider one. -/
theorem Within.fits (h : f.Within g) (hn : f.Fits n) : g.Fits (n * 2 ^ (g.scale - f.scale)) := by
  obtain ⟨hprecision, -, htop⟩ := h
  generalize g.scale - f.scale = k at htop ⊢
  have hlength : bitLength (n * 2 ^ k) ≤ bitLength n + k := bitLength_le_iff.2 (by
    rw [Nat.pow_add]
    exact Nat.mul_lt_mul_of_pos_right (bitLength_le_iff.1 le_rfl) (Nat.two_pow_pos k))
  have hplaces : g.places (n * 2 ^ k) ≤ f.places n + k := by
    unfold places
    omega
  constructor
  · calc n * 2 ^ k < 2 ^ f.top * 2 ^ k := Nat.mul_lt_mul_of_pos_right hn.1 (Nat.two_pow_pos k)
      _ = 2 ^ (f.top + k) := (Nat.pow_add ..).symm
      _ ≤ 2 ^ g.top := Nat.pow_le_pow_right Nat.two_pos htop
  · refine Nat.mod_eq_zero_of_dvd ?_
    calc 2 ^ g.places (n * 2 ^ k) ∣ 2 ^ (f.places n + k) := Nat.pow_dvd_pow 2 hplaces
      _ = 2 ^ f.places n * 2 ^ k := Nat.pow_add ..
      _ ∣ n * 2 ^ k := Nat.mul_dvd_mul_right (Nat.dvd_of_mod_eq_zero hn.2) _

end Format

namespace Binary

theorem ofRatio_of_fits (negative : Bool) (hn : f.Fits n) (hden : 0 < den) :
    ofRatio negative (n * den) den = finite negative n hn := by
  unfold ofRatio
  simp only [Format.round_of_fits hn hden]
  exact dif_pos hn

/-- **A wider format keeps every number.** -/
theorem convert_convert (h : f.Within g) (x : Binary f) : (x.convert : Binary g).convert = x := by
  cases x with
  | nan => rfl
  | infinite negative => rfl
  | finite negative n hn =>
    have hunits : g.one = 2 ^ (g.scale - f.scale) * f.one := by
      show 2 ^ g.scale = 2 ^ (g.scale - f.scale) * 2 ^ f.scale
      rw [← Nat.pow_add, Nat.sub_add_cancel h.scale]
    have hone (e : Format) : 0 < e.one := Nat.two_pow_pos _
    have hthere : (convert (finite negative n hn) : Binary g) =
        finite negative (n * 2 ^ (g.scale - f.scale)) (h.fits hn) := by
      show ofRatio negative (n * g.one) f.one = _
      rw [hunits, ← Nat.mul_assoc, ofRatio_of_fits negative (h.fits hn) (hone f)]
    rw [hthere]
    show ofRatio negative (n * 2 ^ (g.scale - f.scale) * f.one) g.one = _
    rw [Nat.mul_assoc, ← hunits, ofRatio_of_fits negative hn (hone g)]

end Binary

end Reasoning
