/-
  Similarity as a measure of overlap.

  Similarity counts the members of the first list that have a partner in the second.  That is the
  same from either side as long as the common stems stand equally often in both lists; otherwise the
  count can pass the length of the shorter list, and similarity depends on which list comes first.

  * `blend`, `similarity_eq`: similarity as a function of three counts;
  * `approx_blend`: what rounding leaves of its exact value;
  * `clamp_blend_lt`: more matched members make lists more similar;
  * `BalancedSimilarity`: what measures of overlap have in common;
  * `balancedSimilarity_iff`: when similarity has it.
-/
import Reasoning.Proofs.Precision
import Reasoning.Proofs.Stem

namespace Reasoning

open Single (Approx)

/-! ## The blend -/

/-- Two shares of matched members, weighted. -/
def blend (matched m n : ℕ) : Single :=
  0.7 * overlapRatio matched m n + 0.3 * unionRatio matched m n

variable {a b : List Text} {m n p q : ℕ}

theorem similarity_eq (ha : a ≠ []) (hb : b ≠ []) :
    similarity a b = Score.clamp (blend (sharedFeatures a b).length a.length b.length) := by
  unfold similarity blend
  rw [if_neg (by simp [ha, hb])]

theorem blend_comm (matched m n : ℕ) : blend matched m n = blend matched n m := by
  unfold blend overlapRatio unionRatio
  rw [Nat.min_comm, Nat.add_comm m]

/-- The weights, as they are in single precision. -/
def overlapWeight : ℚ := 11744051 / 2 ^ 24

def unionWeight : ℚ := 10066330 / 2 ^ 25

theorem approx_overlapWeight : Approx 0 2 0.7 overlapWeight := by
  refine ⟨⟨11744051 * 2 ^ 125, by decide +kernel, by decide +kernel, ?_⟩, .inr ?_⟩
  · rw [Format.one_single, overlapWeight]
    norm_num
    exact .refl _
  · norm_num [overlapWeight]

theorem approx_unionWeight : Approx 0 2 0.3 unionWeight := by
  refine ⟨⟨10066330 * 2 ^ 124, by decide +kernel, by decide +kernel, ?_⟩, .inr ?_⟩
  · rw [Format.one_single, unionWeight]
    norm_num
    exact .refl _
  · norm_num [unionWeight]

theorem quarter_le_overlapWeight : 1 / 4 ≤ overlapWeight := by norm_num [overlapWeight]

theorem quarter_le_unionWeight : 1 / 4 ≤ unionWeight := by norm_num [unionWeight]

theorem overlapWeight_pos : 0 < overlapWeight := by linarith [quarter_le_overlapWeight]

theorem unionWeight_pos : 0 < unionWeight := by linarith [quarter_le_unionWeight]

/-- The weights come to one, although both are rounded. -/
theorem weights_add : overlapWeight + unionWeight = 1 := by norm_num [overlapWeight, unionWeight]

/-- The blend without rounding. -/
def exactBlend (matched m n : ℕ) : ℚ :=
  overlapWeight * (matched / (min m n : ℕ)) + unionWeight * (matched / (m + n - matched : ℕ))

theorem approx_blend (hm : 0 < m) (hn : 0 < n) (hp : p ≤ max m n) (hsize : m + n ≤ 2 ^ 19) :
    Approx 5 43 (blend p m n) (exactBlend p m n) := by
  have hratio (k : ℕ) (hk : 0 < k) (hk' : k ≤ 2 ^ 20) :
      Approx 3 40 (.ofNat p / .ofNat k) (p / k) :=
    (Approx.ofNat (b := 20) (by omega) (by omega)).div (Approx.ofNat (b := 20) hk' (by omega))
      (by exact_mod_cast hk.ne') (by omega) (by omega)
  have hoverlap := hratio (min m n) (by omega) (by omega)
  have hunion := hratio (m + n - p) (by omega) (by omega)
  exact (approx_overlapWeight.mul hoverlap (by omega) (by omega)).add
    (approx_unionWeight.mul hunion (by omega) (by omega)) (by omega) (by omega)

/-! ## More matched members -/

/-- A larger count makes up for ten roundings. -/
theorem cast_lt_mul_kept (hpq : p < q) (hq : q ≤ 2 ^ 19) : (p : ℚ) < q * kept ^ 10 := by
  have hkept : 1 - 1 / 2 ^ 19 < kept ^ 10 := by norm_num [kept]
  have hpos : (0 : ℚ) < q := by exact_mod_cast Nat.zero_lt_of_lt hpq
  have hpq : (p : ℚ) + 1 ≤ q := by exact_mod_cast hpq
  have hq : (q : ℚ) ≤ 2 ^ 19 := by exact_mod_cast hq
  calc (p : ℚ) ≤ q - 1 := by linarith
    _ ≤ q * (1 - 1 / 2 ^ 19) := by linarith
    _ < q * kept ^ 10 := mul_lt_mul_of_pos_left hkept hpos

theorem exactBlend_lt (hm : 0 < m) (hn : 0 < n) (hpq : p < q) (hq : q ≤ max m n)
    (hsize : m + n ≤ 2 ^ 19) : exactBlend p m n < exactBlend q m n * kept ^ 10 := by
  have hlt := cast_lt_mul_kept hpq (by omega)
  have hshort : (0 : ℚ) < (min m n : ℕ) := by exact_mod_cast (by omega : 0 < min m n)
  have hrest : (0 : ℚ) < (m + n - q : ℕ) := by exact_mod_cast (by omega : 0 < m + n - q)
  have hle : ((m + n - q : ℕ) : ℚ) ≤ (m + n - p : ℕ) := by
    exact_mod_cast (by omega : m + n - q ≤ m + n - p)
  have hoverlap : (p : ℚ) / (min m n : ℕ) < q / (min m n : ℕ) * kept ^ 10 := by
    rw [div_mul_eq_mul_div]
    exact div_lt_div_of_pos_right hlt hshort
  have hunion : (p : ℚ) / (m + n - p : ℕ) ≤ q / (m + n - q : ℕ) * kept ^ 10 := by
    rw [div_mul_eq_mul_div]
    exact div_le_div₀ (by positivity) hlt.le hrest hle
  unfold exactBlend
  have := mul_lt_mul_of_pos_left hoverlap overlapWeight_pos
  have := mul_le_mul_of_nonneg_left hunion unionWeight_pos.le
  linarith

/-- A share that is not the whole leaves room for some roundings. -/
theorem share_le (hpq : p < q) (hq : q ≤ 2 ^ 19) : (p : ℚ) / q ≤ 1 - 1 / 2 ^ 19 := by
  have hpos : (0 : ℚ) < q := by exact_mod_cast Nat.zero_lt_of_lt hpq
  have hpq : (p : ℚ) + 1 ≤ q := by exact_mod_cast hpq
  have hq : (q : ℚ) ≤ 2 ^ 19 := by exact_mod_cast hq
  rw [div_le_iff₀ hpos]
  linarith

theorem exactBlend_lt_one (hm : 0 < m) (hn : 0 < n) (hp : p ≤ min m n) (hpq : p < q)
    (hq : q ≤ max m n) (hsize : m + n ≤ 2 ^ 19) : exactBlend p m n < kept ^ 6 := by
  have hweights := weights_add
  have hkept : 1 - 1 / 2 ^ 19 / 4 < kept ^ 6 := by norm_num [kept]
  have hshort : (0 : ℚ) < (min m n : ℕ) := by exact_mod_cast (by omega : 0 < min m n)
  have hrest : (0 : ℚ) < (m + n - p : ℕ) := by exact_mod_cast (by omega : 0 < m + n - p)
  refine lt_of_le_of_lt ?_ hkept
  unfold exactBlend
  -- One of the shares is not the whole: the first one, or else the lists differ in length.
  rcases Nat.lt_or_eq_of_le hp with hlt | rfl
  · have hoverlap := share_le hlt (by omega)
    have hunion : (p : ℚ) / (m + n - p : ℕ) ≤ 1 := by
      rw [div_le_one hrest]
      exact_mod_cast (by omega : p ≤ m + n - p)
    have := mul_le_mul_of_nonneg_left hoverlap overlapWeight_pos.le
    have := mul_le_mul_of_nonneg_left hunion unionWeight_pos.le
    linarith [quarter_le_overlapWeight]
  · have hoverlap := div_self hshort.ne'
    have hunion := share_le (p := min m n) (q := m + n - min m n) (by omega) (by omega)
    have := mul_le_mul_of_nonneg_left hunion unionWeight_pos.le
    rw [hoverlap]
    linarith [quarter_le_unionWeight]

/-- **More matched members make lists more similar.** -/
theorem clamp_blend_lt (hm : 0 < m) (hn : 0 < n) (hp : p ≤ min m n) (hpq : p < q)
    (hq : q ≤ max m n) (hsize : m + n ≤ 2 ^ 19) :
    Score.clamp (blend p m n) < Score.clamp (blend q m n) := by
  have hless := approx_blend hm hn (show p ≤ max m n by omega) hsize
  have hmore := approx_blend hm hn hq hsize
  have hone : Approx 1 0 (.ofNat 1) (1 : ℕ) := .ofNat (by norm_num) (by omega)
  refine Score.clamp_lt_clamp hless.nonneg (hless.lt hone ?_)
    (hless.lt hmore (exactBlend_lt hm hn hpq hq hsize))
  rw [Nat.cast_one, one_mul]
  exact exactBlend_lt_one hm hn hp hpq hq hsize

/-! ## Overlap -/

/-- What measures of overlap have in common: no more is matched than either list has, no share is
    more than the whole, and the lists can change places. -/
structure BalancedSimilarity (a b : List Text) : Prop where
  matched_le : (sharedFeatures a b).length ≤ min a.length b.length
  overlap_le : overlapRatio (sharedFeatures a b).length a.length b.length ≤ 1
  union_le : unionRatio (sharedFeatures a b).length a.length b.length ≤ 1
  comm : similarity a b = similarity b a

theorem balancedSimilarity_of_length_eq (ha : a ≠ []) (hb : b ≠ [])
    (hsize : a.length + b.length < 2 ^ 64)
    (h : (sharedFeatures a b).length = (sharedFeatures b a).length) : BalancedSimilarity a b := by
  have hapos := List.length_pos_iff.2 ha
  have hbpos := List.length_pos_iff.2 hb
  have hle : (sharedFeatures a b).length ≤ a.length := List.length_filter_le ..
  have hle' : (sharedFeatures b a).length ≤ b.length := List.length_filter_le ..
  refine ⟨by omega, Single.ofNat_div_le_one ?_ ?_ ?_, Single.ofNat_div_le_one ?_ ?_ ?_, ?_⟩
  · omega
  · omega
  · omega
  · omega
  · omega
  · omega
  · rw [similarity_eq ha hb, similarity_eq hb ha, h, blend_comm]

theorem length_eq_of_balancedSimilarity (ha : a ≠ []) (hb : b ≠ [])
    (hsize : a.length + b.length ≤ 2 ^ 19) (h : BalancedSimilarity a b) :
    (sharedFeatures a b).length = (sharedFeatures b a).length := by
  have hapos := List.length_pos_iff.2 ha
  have hbpos := List.length_pos_iff.2 hb
  have hle : (sharedFeatures a b).length ≤ min a.length b.length := h.matched_le
  have hle' : (sharedFeatures b a).length ≤ b.length := List.length_filter_le ..
  have hcomm := h.comm
  rw [similarity_eq ha hb, similarity_eq hb ha, blend_comm _ b.length] at hcomm
  rcases Nat.lt_trichotomy (sharedFeatures a b).length (sharedFeatures b a).length
    with hlt | heq | hlt
  · exact absurd hcomm (Binary.ne_of_lt (clamp_blend_lt hapos hbpos hle hlt (by omega) hsize))
  · exact heq
  · exact absurd hcomm.symm
      (Binary.ne_of_lt (clamp_blend_lt hapos hbpos (by omega) hlt (by omega) hsize))

/-- **Similarity is a measure of overlap if and only if as many members of one list have a partner
    as of the other one.**  So it is if no stem stands twice in a list.  Single precision may round
    different counts of longer lists to the same similarity. -/
theorem balancedSimilarity_iff (ha : a ≠ []) (hb : b ≠ []) (hsize : a.length + b.length < 2 ^ 64) :
    let stems := (a.map Text.stem).toFinset ∩ (b.map Text.stem).toFinset
    let matched := ∑ s ∈ stems, (a.map Text.stem).count s
    let partners := ∑ s ∈ stems, (b.map Text.stem).count s
    (sharedFeatures a b).length = matched ∧ (sharedFeatures b a).length = partners ∧
      (matched = partners → BalancedSimilarity a b) ∧
      (a.length + b.length ≤ 2 ^ 19 → BalancedSimilarity a b → matched = partners) ∧
      ((a.map Text.stem).Nodup → (b.map Text.stem).Nodup → BalancedSimilarity a b) := by
  intro stems matched partners
  have hmatched : (sharedFeatures a b).length = matched := length_sharedFeatures a b
  have hpartners : (sharedFeatures b a).length = partners := by
    rw [length_sharedFeatures, Finset.inter_comm]
  refine ⟨hmatched, hpartners, fun h => ?_, fun hshort h => ?_, fun hna hnb => ?_⟩
  · exact balancedSimilarity_of_length_eq ha hb hsize (by rw [hmatched, hpartners, h])
  · rw [← hmatched, ← hpartners, length_eq_of_balancedSimilarity ha hb hshort h]
  · refine balancedSimilarity_of_length_eq ha hb hsize ?_
    rw [length_sharedFeatures_of_nodup hna, length_sharedFeatures_of_nodup hnb, Finset.inter_comm]

/-- Different stems on either side: what is matched of two features with one partner in three is the
    same either way round. -/
theorem balancedSimilarity_markets :
    let a := Text.ofStrings ["markets", "trade"]
    let b := Text.ofStrings ["flow", "marketing", "growth"]
    a ≠ [] ∧ b ≠ [] ∧ a.length + b.length < 2 ^ 64 ∧ (a.map Text.stem).Nodup ∧
      (b.map Text.stem).Nodup ∧ BalancedSimilarity a b ∧ (sharedFeatures a b).length = 1 := by
  intro a b
  have ha : a ≠ [] := by decide
  have hb : b ≠ [] := by decide
  have hsize : a.length + b.length < 2 ^ 64 := by decide
  have hna : (a.map Text.stem).Nodup := by decide +kernel
  have hnb : (b.map Text.stem).Nodup := by decide +kernel
  have hbalanced := (balancedSimilarity_iff ha hb hsize).2.2.2.2 hna hnb
  exact ⟨ha, hb, hsize, hna, hnb, hbalanced, by decide +kernel⟩

/-- Two features with the same stem both find the one feature of the other list: twice as many are
    matched as it has, the share of it is two, and the lists are less alike the other way round. -/
theorem not_balancedSimilarity_markets :
    let a := Text.ofStrings ["markets", "marketing"]
    let b := Text.ofStrings ["market"]
    a.Nodup ∧ b.Nodup ∧ (sharedFeatures a b).length = 2 ∧ min a.length b.length = 1 ∧
      overlapRatio 2 a.length b.length = 2 ∧ similarity a b = 1 ∧ similarity b a = 0.85 ∧
      ¬ BalancedSimilarity a b := by
  intro a b
  have hmatched : (sharedFeatures a b).length = 2 := by decide +kernel
  have hshort : min a.length b.length = 1 := by decide
  refine ⟨by decide +kernel, by decide +kernel, hmatched, hshort, by decide +kernel,
    by decide +kernel, by decide +kernel, fun h => ?_⟩
  have := h.matched_le
  omega

end Reasoning
