/-
  Decisions and the risks of a choice.

  Calculated exactly, no rule scores a choice higher because one of its risks is higher.  A risk
  enters as the largest, in the mean, or as a value on a criterion of risk, where it counts
  inverted; and it is not among the outcomes that the other choices are compared by.

  * `foldl_le`: folds whose steps are monotone;
  * `Choice.Riskier`, `Choice.riskier_insert`: choices that differ by higher risks;
  * `DecisionRule.score_riskier`: risks of other choices do not count;
  * `DecisionRule.score_le_of_riskier`: a riskier choice does not score higher;
  * `DecisionRule.scores_insert_risk`: the scores when one risk of one choice is raised.
-/
import Mathlib.Algebra.Order.BigOperators.Group.List
import Mathlib.Algebra.Order.Field.Basic
import Mathlib.Data.Rat.Cast.Order
import Mathlib.Tactic.GCongr
import Mathlib.Tactic.Linarith
import Mathlib.Tactic.Positivity
import Reasoning.Decision.Scores
import Reasoning.Proofs.Average
import Reasoning.Proofs.Dict

namespace Reasoning

/-! ## Exact numbers -/

namespace Scalar

variable {x y : ℚ}

@[simp] theorem zero_rat : (zero : ℚ) = 0 := rfl

@[simp] theorem one_rat : (one : ℚ) = 1 := rfl

@[simp] theorem ofNat_rat (n : Nat) : (Scalar.ofNat n : ℚ) = n := rfl

theorem larger_rat (x y : ℚ) : larger x y = max x y := by
  unfold larger
  simp only [less, decide_eq_true_eq]
  split <;> grind

theorem smaller_rat (x y : ℚ) : smaller x y = min x y := by
  unfold smaller
  simp only [less, decide_eq_true_eq]
  split <;> grind

theorem clamp_mono (h : x ≤ y) : clamp x ≤ clamp y := by
  rw [RunningAverage.clamp_rat, RunningAverage.clamp_rat]
  split_ifs <;> linarith

theorem sum_rat (xs : List ℚ) : Scalar.sum xs = xs.sum := by
  suffices h : ∀ x : ℚ, xs.foldl (· + ·) x = x + xs.sum by simpa [Scalar.sum] using h 0
  induction xs with
  | nil => simp
  | cons y xs ih => exact fun x => by rw [List.foldl_cons, ih, List.sum_cons, add_assoc]

end Scalar

/-- Folds over related lists, where a step at a larger number comes to a larger one. -/
theorem foldl_le {β γ : Type} {R : β → γ → Prop} {f : ℚ → β → ℚ} {g : ℚ → γ → ℚ}
    (hstep : ∀ b c, R b c → ∀ x y, x ≤ y → f x b ≤ g y c) {bs : List β} {cs : List γ}
    (h : List.Forall₂ R bs cs) {x y : ℚ} (hxy : x ≤ y) : bs.foldl f x ≤ cs.foldl g y := by
  induction h generalizing x y with
  | nil => exact hxy
  | cons hbc _ ih => exact ih (hstep _ _ hbc _ _ hxy)

/-! ## Replacing a value -/

/-- A key that is there gets its new value in the place of the old one. -/
theorem Dict.Sorted.insert_eq {ν : Type} {d : Dict ν} (h : d.Sorted) {k : Text} {v : ν}
    (hk : d.get? k = some v) (w : ν) :
    ∃ before after, d = before ++ (k, v) :: after ∧ d.insert k w = before ++ (k, w) :: after := by
  induction d with
  | nil => cases hk
  | cons e d ih =>
    obtain ⟨l, u⟩ := e
    obtain ⟨hl, hd⟩ := List.pairwise_cons.1 h
    rw [get?_cons] at hk
    unfold Dict.insert
    by_cases hkl : k = l
    · subst hkl
      rw [if_pos rfl, Option.some.injEq] at hk
      rw [if_neg (Text.not_before_self k), if_pos (beq_self_eq_true k), hk]
      exact ⟨[], d, rfl, rfl⟩
    · rw [if_neg hkl] at hk
      obtain ⟨before, after, hsplit, hinsert⟩ := ih hd hk
      have hlk : l.before k := hl (k, v) ((Dict.Sorted.mem_iff hd).2 hk)
      have hnot : ¬ k.before l := fun hkl => Text.not_before_self k (Text.before_trans hkl hlk)
      rw [if_neg hnot, if_neg (by simpa using hkl), hinsert, hsplit]
      exact ⟨(l, u) :: before, after, rfl, rfl⟩

/-! ## Riskier choices -/

namespace Choice

/-- What is said of the choice, its risks apart, lies between zero and one. -/
structure Bounded (c : Choice ℚ) : Prop where
  criteriaScores : ∀ x ∈ c.criteriaScores.values, 0 ≤ x ∧ x ≤ 1
  utilities : ∀ x ∈ c.utilities.values, 0 ≤ x ∧ x ≤ 1
  confidence : 0 ≤ c.confidence ∧ c.confidence ≤ 1

/-- The second choice differs from the first by risks that are higher. -/
structure Riskier (c c' : Choice ℚ) : Prop where
  criteriaScores : c'.criteriaScores = c.criteriaScores
  utilities : c'.utilities = c.utilities
  confidence : c'.confidence = c.confidence
  risks : List.Forall₂ (fun a b => a.1 = b.1 ∧ a.2 ≤ b.2) c.risks c'.risks

variable {c c' : Choice ℚ} {cs cs' : List (Choice ℚ)} {fromScores : Bool} {key : Text}

theorem Riskier.refl (c : Choice ℚ) : Riskier c c :=
  ⟨rfl, rfl, rfl, List.forall₂_same.2 fun _ _ => ⟨rfl, le_rfl⟩⟩

/-- A choice with one of its risks raised. -/
theorem riskier_insert {r r' : ℚ} (h : c.risks.Sorted) (hr : c.risks.get? key = some r)
    (hle : r ≤ r') : Riskier c { c with risks := c.risks.insert key r' } := by
  obtain ⟨before, after, hsplit, hinsert⟩ := h.insert_eq hr r'
  refine ⟨rfl, rfl, rfl, ?_⟩
  have hsame (d : Dict ℚ) : List.Forall₂ (fun a b => a.1 = b.1 ∧ a.2 ≤ b.2) d d :=
    List.forall₂_same.2 fun _ _ => ⟨rfl, le_rfl⟩
  show List.Forall₂ _ c.risks (c.risks.insert key r')
  rw [hinsert, hsplit]
  exact List.rel_append (hsame before) (.cons ⟨rfl, hle⟩ (hsame after))

namespace Riskier

variable (h : Riskier c c')
include h

theorem outcomes (fromScores : Bool) : c'.outcomes fromScores = c.outcomes fromScores := by
  unfold Choice.outcomes
  rw [h.criteriaScores, h.utilities]

theorem states (fromScores : Bool) (key : Text) :
    c'.states fromScores key = c.states fromScores key := by
  unfold Choice.states
  rw [h.outcomes]

theorem isEmpty_risks : c'.risks.isEmpty = c.risks.isEmpty := by
  rw [Bool.eq_iff_iff, List.isEmpty_iff_length_eq_zero, List.isEmpty_iff_length_eq_zero,
    h.risks.length_eq]

theorem values : List.Forall₂ (· ≤ ·) c.risks.values c'.risks.values :=
  List.forall₂_map_left_iff.2 (List.forall₂_map_right_iff.2 (h.risks.imp fun _ _ h => h.2))

/-- The largest risk is higher. -/
theorem maxRisk : c.maxRisk ≤ c'.maxRisk :=
  foldl_le (fun x x' hx y y' hy => by
    rw [Scalar.larger_rat, Scalar.larger_rat]
    exact max_le_max hy hx) h.values le_rfl

/-- So is the mean risk. -/
theorem meanRisk : c.meanRisk ≤ c'.meanRisk := by
  unfold Choice.meanRisk
  rw [h.isEmpty_risks, ← h.risks.length_eq]
  split
  · exact le_rfl
  · rw [Scalar.sum_rat, Scalar.sum_rat, Scalar.ofNat_rat]
    have hsum := h.values.sum_le_sum
    gcongr

/-- What is looked up among the risks is there in both or in neither, and higher in the second. -/
theorem get?_risks (key : Text) : (c.risks.get? key = none ∧ c'.risks.get? key = none) ∨
    ∃ x y, c.risks.get? key = some x ∧ c'.risks.get? key = some y ∧ x ≤ y := by
  have hrisks := h.risks
  generalize c.risks = d at hrisks ⊢
  generalize c'.risks = e at hrisks ⊢
  induction hrisks with
  | nil => exact .inl ⟨rfl, rfl⟩
  | @cons a b d e hab _ ih =>
    obtain ⟨k, x⟩ := a
    obtain ⟨l, y⟩ := b
    obtain ⟨rfl, hxy⟩ := hab
    rw [Dict.get?_cons, Dict.get?_cons]
    split
    · exact .inr ⟨x, y, rfl, rfl, hxy⟩
    · exact ih

end Riskier

/-- The values of a bounded choice are not negative. -/
theorem Bounded.states (h : c.Bounded) (fromScores : Bool) (key : Text) :
    0 ≤ (c.states fromScores key).1 ∧ 0 ≤ (c.states fromScores key).2 := by
  unfold Choice.states
  split
  · rename_i v hv
    obtain ⟨before, after, hsplit, -⟩ := List.lookup_eq_some_iff.1 hv
    have hmem : v ∈ (c.outcomes fromScores).values := by simp [hsplit, Dict.values]
    have hv : 0 ≤ v ∧ v ≤ 1 := by
      unfold outcomes at hmem
      split at hmem
      · exact h.criteriaScores v hmem
      · exact h.utilities v hmem
    exact ⟨hv.1, sub_nonneg.2 hv.2⟩
  · exact ⟨le_rfl, le_rfl⟩

end Choice

/-! ## Scores of riskier choices -/

namespace DecisionRule

open Choice

variable {c c' : Choice ℚ} {cs cs' : List (Choice ℚ)} {ks : List (Criterion ℚ)}

/-- Risks are not among the outcomes. -/
theorem Outlook.of_riskier (h : List.Forall₂ Riskier cs cs') :
    Outlook.of cs' = Outlook.of cs := by
  have hlack : lackUtilities cs' = lackUtilities cs := by
    induction h with
    | nil => rfl
    | cons hc _ ih =>
      unfold lackUtilities at ih ⊢
      rw [List.all_cons, List.all_cons, hc.utilities, ih]
  have hkeys : ∀ fromScores, cs'.flatMap (fun c => Dict.keys (c.outcomes fromScores)) =
      cs.flatMap fun c => Dict.keys (c.outcomes fromScores) := by
    intro fromScores
    clear hlack
    induction h with
    | nil => rfl
    | cons hc _ ih => rw [List.flatMap_cons, List.flatMap_cons, hc.outcomes, ih]
  unfold Outlook.of outcomeKeys
  dsimp only
  rw [hlack, hkeys]

/-- Nor among what is best for each outcome. -/
theorem bestStates_riskier (h : List.Forall₂ Riskier cs cs') (o : Outlook) (key : Text) :
    bestStates o cs' key = bestStates o cs key := by
  unfold bestStates
  generalize ((Scalar.zero, Scalar.zero) : ℚ × ℚ) = best
  induction h generalizing best with
  | nil => rfl
  | cons hc _ ih =>
    rw [List.foldl_cons, List.foldl_cons, ih]
    simp only [hc.states]

/-- Risks of other choices do not count. -/
theorem score_riskier (h : List.Forall₂ Riskier cs cs') (kind : Kind) (ks : List (Criterion ℚ))
    (c : Choice ℚ) : score kind ks cs' c = score kind ks cs c := by
  unfold score
  rw [Outlook.of_riskier h]
  cases kind with
  | minimaxRegret =>
    unfold regretScore
    simp only [bestStates_riskier h]
  | _ => rfl

section
variable (h : Riskier c c') (o : Outlook)
include h

theorem statesOf_riskier : statesOf o c' = statesOf o c :=
  List.map_congr_left fun key _ => h.states o.fromScores key

/-- The largest risk counts among what is worst. -/
theorem maximinScore_riskier : maximinScore o c' ≤ maximinScore o c := by
  unfold maximinScore
  rw [h.isEmpty_risks, statesOf_riskier h]
  split
  · exact le_rfl
  · dsimp only
    rw [Scalar.smaller_rat _ (_ - _), Scalar.smaller_rat _ (_ - _)]
    exact min_le_min le_rfl (sub_le_sub_left h.maxRisk _)

/-- The mean risk takes a part of what is expected, which is not negative. -/
theorem expectedScore_riskier (hc : c.Bounded) : expectedScore o c' ≤ expectedScore o c := by
  unfold expectedScore
  rw [statesOf_riskier h, h.confidence]
  split
  · exact le_rfl
  · dsimp only
    refine Scalar.clamp_mono (mul_le_mul_of_nonneg_left (sub_le_sub_left h.meanRisk _) ?_)
    refine div_nonneg ?_ (Nat.cast_nonneg _)
    refine List.foldlRecOn _ _ (motive := fun sum : ℚ => 0 ≤ sum) le_rfl fun sum hsum s hs => ?_
    obtain ⟨key, -, rfl⟩ := List.mem_map.1 hs
    obtain ⟨hfavourable, hadverse⟩ := hc.states o.fromScores key
    have hp := hc.confidence.1
    have hq : (0 : ℚ) ≤ Scalar.one - c.confidence := sub_nonneg.2 hc.confidence.2
    positivity

/-- A risk that counts for a criterion counts inverted. -/
theorem gain_riskier {k : Criterion ℚ} (hk : 0 ≤ k.weight) {sum sum' : ℚ} (hsum : sum ≤ sum') :
    gain c' sum k ≤ gain c sum' k := by
  unfold gain valueOn?
  rw [h.criteriaScores, h.utilities]
  -- A score or a utility of the same name hides the risk.
  rcases c.criteriaScores.get? k.name with _ | x
  · rcases c.utilities.get? k.name with _ | x
    · by_cases hkind : k.kind = .risk
      · simp only [hkind, isInverted, if_true]
        rcases h.get?_risks k.name with ⟨hx, hy⟩ | ⟨x, y, hx, hy, hxy⟩
        · simpa [hx, hy] using hsum
        · simp only [hx, hy]
          show sum + k.weight * (Scalar.one - y) ≤ sum' + k.weight * (Scalar.one - x)
          gcongr
      · simpa [hkind] using hsum
    · exact add_le_add_left hsum _
  · exact add_le_add_left hsum _

/-- So no weighted gain is larger. -/
theorem utilityScore_riskier (hks : ∀ k ∈ ks, 0 ≤ k.weight) :
    utilityScore o ks c' ≤ utilityScore o ks c := by
  have hweights : ∀ k ∈ effective o ks, 0 ≤ k.weight := by
    unfold effective
    split
    · exact List.forall_mem_map.2 fun _ _ => zero_le_one
    · exact hks
  unfold utilityScore
  dsimp only
  generalize effective o ks = ks at hweights
  split
  · rename_i htotal
    refine Scalar.clamp_mono (div_le_div_of_nonneg_right ?_ ?_)
    · exact foldl_le (R := fun k k' => k = k' ∧ 0 ≤ k.weight)
        (fun k k' hk sum sum' hsum => hk.1 ▸ gain_riskier h hk.2 hsum)
        (List.forall₂_same.2 fun k hk => ⟨rfl, hweights k hk⟩) le_rfl
    · rw [Scalar.sum_rat]
      exact List.sum_nonneg (List.forall_mem_map.2 hweights)
  · exact le_rfl

end

/-- A riskier choice does not score higher. -/
theorem score_le_of_riskier (h : Riskier c c') (hc : c.Bounded) (hks : ∀ k ∈ ks, 0 ≤ k.weight)
    (kind : Kind) (cs : List (Choice ℚ)) : score kind ks cs c' ≤ score kind ks cs c := by
  cases kind with
  | maximax =>
    refine le_of_eq ?_
    show maximaxScore _ c' = maximaxScore _ c
    unfold maximaxScore
    rw [statesOf_riskier h]
  | maximin => exact maximinScore_riskier h _
  | minimaxRegret =>
    refine le_of_eq ?_
    show regretScore _ cs c' = regretScore _ cs c
    unfold regretScore
    simp only [h.states]
  | expectedValue => exact expectedScore_riskier h _ hc
  | utilityMaximization => exact utilityScore_riskier h _ hks

/-- **More risk never helps.**  If one risk of one choice is raised, the other choices have the
    scores they had, and that choice has no higher one. -/
theorem scores_insert_risk (kind : Kind) {ks : List (Criterion ℚ)} (hks : ∀ k ∈ ks, 0 ≤ k.weight)
    {cs : List (Choice ℚ)} (hcs : ∀ c ∈ cs, c.Bounded) {i : Nat} {c : Choice ℚ}
    (hi : cs[i]? = some c) (hsorted : c.risks.Sorted) {key : Text} {r r' : ℚ}
    (hr : c.risks.get? key = some r) (hle : r ≤ r') :
    let cs' := cs.set i { c with risks := c.risks.insert key r' }
    (∀ j, j ≠ i → (scores kind ks cs')[j]? = (scores kind ks cs)[j]?) ∧
    ∃ x x', (scores kind ks cs)[i]? = some x ∧ (scores kind ks cs')[i]? = some x' ∧ x' ≤ x := by
  intro cs'
  have hrisk := riskier_insert hsorted hr hle
  obtain ⟨hlt, rfl⟩ := List.getElem?_eq_some_iff.1 hi
  have hall : List.Forall₂ Riskier cs cs' := by
    refine List.forall₂_iff_get.2 ⟨by simp [cs'], fun j hj hj' => ?_⟩
    by_cases hij : i = j
    · subst hij
      simpa [cs'] using hrisk
    · simpa [cs', hij] using Riskier.refl _
  have hscores : scores kind ks cs' = cs'.map (score kind ks cs) :=
    List.map_congr_left fun c _ => score_riskier hall kind ks c
  rw [hscores]
  refine ⟨fun j hj => ?_, score kind ks cs cs[i],
    score kind ks cs { cs[i] with risks := cs[i].risks.insert key r' },
    by simp [scores, hlt], by simp [cs', hlt], ?_⟩
  · simp [cs', scores, List.getElem?_set_ne hj.symm]
  · exact score_le_of_riskier hrisk (hcs _ (List.getElem_mem hlt)) hks kind cs

/-- A delay that becomes likely makes the steadier choice the better one. -/
theorem scores_insert_risk_delay :
    let quick : Choice ℚ := ⟨"quick", "quick", [], [], [(Text.ofString "profit", 9 / 10)],
      [(Text.ofString "delay", 1 / 10)], 1⟩
    let steady : Choice ℚ := ⟨"steady", "steady", [], [], [(Text.ofString "profit", 3 / 5)], [], 1⟩
    let cs := [quick, steady]
    let cs' := cs.set 0 { quick with risks := quick.risks.insert "delay" (1 / 2) }
    scores .expectedValue [] cs = [81 / 100, 3 / 5] ∧
    scores .expectedValue [] cs' = [9 / 20, 3 / 5] ∧
    (∀ j, j ≠ 0 → (scores .expectedValue [] cs')[j]? = (scores .expectedValue [] cs)[j]?) ∧
    ∃ x x', (scores .expectedValue [] cs)[0]? = some x ∧
      (scores .expectedValue [] cs')[0]? = some x' ∧ x' ≤ x := by
  intro quick steady cs cs'
  have hcs : ∀ c ∈ cs, c.Bounded := List.forall_mem_cons.2 ⟨⟨by decide, by decide +kernel,
    by decide +kernel⟩, List.forall_mem_singleton.2 ⟨by decide, by decide +kernel,
    by decide +kernel⟩⟩
  have hsorted : quick.risks.Sorted := List.pairwise_singleton ..
  exact ⟨by decide +kernel, by decide +kernel,
    scores_insert_risk .expectedValue (List.forall_mem_nil _) hcs (i := 0) rfl hsorted
      (show quick.risks.get? "delay" = some (1 / 10) by decide +kernel) (by decide +kernel)⟩

end DecisionRule

end Reasoning
