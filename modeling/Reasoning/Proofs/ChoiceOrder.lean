/-
  Decisions and the order of the choices.

  What a rule says of a choice is said in view of all choices, but not of their order.

  * `DecisionRule.Outlook.of_perm`, `DecisionRule.bestStates_perm`: what the rules see of all
    choices;
  * `DecisionRule.score_perm`, `DecisionRule.confidence_decide_perm`: so every choice has its score
    in whatever order they come, and the verdict its confidence;
  * `Choice.Sound`, `DecisionRule.isNaN_score`: no score is `nan` unless an attribute is;
  * `DecisionRule.decide_rearranged`: all this, and the choice that is picked.
-/
import Mathlib.Data.List.FinRange
import Mathlib.Data.List.OfFn
import Mathlib.Logic.Equiv.Fin.Rotate
import Reasoning.Proofs.Consistency
import Reasoning.Proofs.Encoding.Decision
import Reasoning.Proofs.Renaming
import Reasoning.Proofs.Selection

namespace Reasoning

open Score

/-! ## Folds -/

/-- A fold over a list in another order, where two steps can change places as long as what has been
    folded so far has a property. -/
theorem foldl_perm {α β : Type} {f : β → α → β} {P : β → Prop} {as bs : List α} (h : as.Perm bs)
    (hstep : ∀ b, P b → ∀ a ∈ as, P (f b a))
    (hcomm : ∀ b, P b → ∀ a ∈ as, ∀ a' ∈ as, f (f b a) a' = f (f b a') a) {b : β} (hb : P b) :
    as.foldl f b = bs.foldl f b := by
  induction h generalizing b with
  | nil => rfl
  | cons a h ih =>
    rw [List.foldl_cons, List.foldl_cons]
    refine ih (fun b hb c hc => hstep b hb c (List.mem_cons_of_mem _ hc))
      (fun b hb c hc d hd => hcomm b hb c (List.mem_cons_of_mem _ hc) d
        (List.mem_cons_of_mem _ hd)) (hstep b hb a (List.mem_cons_self ..))
  | swap a a' as =>
    rw [List.foldl_cons, List.foldl_cons, List.foldl_cons, List.foldl_cons,
      hcomm b hb a' (by simp) a (by simp)]
  | trans h h' ih ih' =>
    rw [ih hstep hcomm hb]
    exact ih' (fun b hb c hc => hstep b hb c (h.mem_iff.2 hc))
      (fun b hb c hc d hd => hcomm b hb c (h.mem_iff.2 hc) d (h.mem_iff.2 hd)) hb

/-! ## The outlook -/

section
variable {α : Type} {cs cs' : List (Choice α)}

/-- The rules see the same outcomes in whatever order the choices come. -/
theorem DecisionRule.Outlook.of_perm (h : cs.Perm cs') : Outlook.of cs = Outlook.of cs' := by
  have hlack : Choice.lackUtilities cs = Choice.lackUtilities cs' := by
    rw [Bool.eq_iff_iff]
    simp only [Choice.lackUtilities, List.all_eq_true, h.mem_iff]
  unfold Outlook.of
  dsimp only
  rw [hlack]
  congr 1
  refine (Dict.sorted_ofList _).keys_eq (Dict.sorted_ofList _) fun k => ?_
  rw [Dict.mem_keys_ofList, Dict.mem_keys_ofList]
  simp only [List.map_map, List.mem_map, List.mem_flatMap, h.mem_iff]

end

/-! ## Numbers -/

namespace Binary

variable {f : Format} {x y : Binary f}

/-- A finite number less another is a number. -/
theorem isNaN_sub (hx : x.isFinite) (hy : y.isNaN = false) : (x - y).isNaN = false := by
  show (add x (neg y)).isNaN = false
  cases x with
  | nan => cases hx
  | infinite a => cases hx
  | finite a m hm =>
    cases y with
    | nan => cases hy
    | infinite b => rfl
    | finite b n hn =>
      show isNaN (if signed a m + signed (!b) n = 0 then zero (a && !b) else
        ofRatio (signed a m + signed (!b) n < 0) (signed a m + signed (!b) n).natAbs 1) = false
      split
      · rfl
      · unfold ofRatio
        dsimp only
        split <;> rfl

end Binary

namespace Scalar

variable {x y z : Single}

theorem isNaN_larger (hx : x.isNaN = false) (hy : y.isNaN = false) :
    (larger x y).isNaN = false := by
  unfold larger
  split
  · exact hy
  · exact hx

theorem isNaN_smaller (hx : x.isNaN = false) (hy : y.isNaN = false) :
    (smaller x y).isNaN = false := by
  unfold smaller
  split
  · exact hy
  · exact hx

theorem isNaN_one_sub (hx : x.isNaN = false) : ((one : Single) - x).isNaN = false :=
  Binary.isNaN_sub (by decide +kernel) hx

theorem isScore_clamp (x : Single) : IsScore (clamp x) := Score.isScore_clamp x

theorem larger_eq (x y : Single) : Scalar.larger x y = if x < y then y else x := rfl

/-- Zero with the positive sign, or a number greater than it. -/
def Counts (x : Single) : Prop := x = zero ∨ (zero : Single) < x

theorem Counts.larger (hz : Counts z) (x : Single) : Counts (Scalar.larger z x) := by
  rw [larger_eq]
  split
  · rename_i hlt
    rcases hz with hz | hz
    · exact .inr (hz ▸ hlt)
    · exact .inr (Binary.lt_of_le_of_lt (Binary.le_of_lt hz) hlt)
  · exact hz

theorem Counts.rank_nonneg (hz : Counts z) : z.isNaN = false ∧ 0 ≤ z.rank := by
  have hzero : (zero : Single).isNaN = false ∧ (zero : Single).rank = 0 := by decide +kernel
  rcases hz with hz | hz
  · rw [hz, hzero.2]
    exact ⟨hzero.1, Int.le_refl 0⟩
  · obtain ⟨-, hnan, hlt⟩ := Binary.lt_iff.1 hz
    rw [hzero.2] at hlt
    exact ⟨hnan, Int.le_of_lt hlt⟩

/-- Numbers that are larger than one that counts replace it, and of two that do the larger stays.
    No zero of another sign can, so it does not matter which comes first. -/
theorem Counts.larger_comm (hz : Counts z) (hx : x.isNaN = false) (hy : y.isNaN = false) :
    Scalar.larger (Scalar.larger z x) y = Scalar.larger (Scalar.larger z y) x := by
  obtain ⟨hznan, hzrank⟩ := hz.rank_nonneg
  have hlt {x y : Single} (hx : x.isNaN = false) (hy : y.isNaN = false) :
      x < y ↔ x.rank < y.rank := by
    rw [Binary.lt_iff]
    simp [hx, hy]
  have hsame (hzx : z.rank < x.rank) (h : x.rank = y.rank) : x = y := by
    rcases Binary.like_of_rank_eq hx hy h with h | ⟨a, b, ha, -⟩
    · exact h
    · have hzero : ∀ a, (Binary.zero a : Single).rank = 0 := by decide +kernel
      rw [ha, hzero] at hzx
      omega
  have hzx := hlt hznan hx
  have hzy := hlt hznan hy
  have hxy := hlt hx hy
  have hyx := hlt hy hx
  simp only [larger_eq]
  grind

end Scalar

/-! ## Scores -/

namespace Choice

/-- No number that is said of the choice is `nan`. -/
def Sound (c : Choice Single) : Prop := ∀ a ∈ c.attributes, a.2.isNaN = false

variable {c : Choice Single}

instance (c : Choice Single) : Decidable c.Scored :=
  decidable_of_iff ((∀ x ∈ c.criteriaScores.values, IsScore x) ∧
      (∀ x ∈ c.utilities.values, IsScore x) ∧ (∀ x ∈ c.risks.values, IsScore x) ∧
      IsScore c.confidence)
    ⟨fun ⟨hs, hu, hr, hc⟩ => ⟨hs, hu, hr, hc⟩,
      fun h => ⟨h.criteriaScores, h.utilities, h.risks, h.confidence⟩⟩

theorem Scored.sound (h : c.Scored) : c.Sound := by
  rintro ⟨k, x⟩ ha
  simp only [attributes, List.mem_append] at ha
  rcases ha with (ha | ha) | ha
  · exact (h.criteriaScores x (List.mem_map_of_mem ha)).isNaN
  · exact (h.utilities x (List.mem_map_of_mem ha)).isNaN
  · exact (h.risks x (List.mem_map_of_mem ha)).isNaN

theorem Sound.states (h : c.Sound) (fromScores : Bool) (key : Text) :
    (c.states fromScores key).1.isNaN = false ∧ (c.states fromScores key).2.isNaN = false := by
  have hzero : (Scalar.zero : Single).isNaN = false := by decide +kernel
  unfold Choice.states
  split
  · rename_i v hv
    obtain ⟨before, after, he, -⟩ := List.lookup_eq_some_iff.1 hv
    have hmem : (key, v) ∈ c.outcomes fromScores := by simp [he]
    have hv : v.isNaN = false := by
      refine h (key, v) ?_
      unfold outcomes at hmem
      unfold attributes
      split at hmem <;> simp [hmem]
    exact ⟨hv, Scalar.isNaN_one_sub hv⟩
  · exact ⟨hzero, hzero⟩

theorem Sound.maxRisk (h : c.Sound) : c.maxRisk.isNaN = false := by
  refine List.foldlRecOn _ _ (motive := fun x : Single => x.isNaN = false) (by decide +kernel)
    fun x hx y hy => Scalar.isNaN_larger hx ?_
  obtain ⟨a, ha, rfl⟩ := List.mem_map.1 hy
  exact h a (by simp [attributes, ha])

end Choice

namespace DecisionRule

variable {o : Outlook} {c : Choice Single} {cs cs' : List (Choice Single)}
  {kind : Kind} {ks : List (Criterion Single)}

/-- The best values of a key are the same in whatever order the choices come. -/
theorem bestStates_perm (h : cs.Perm cs') (hcs : ∀ c ∈ cs, c.Sound) (o : Outlook) (key : Text) :
    bestStates o cs key = bestStates o cs' key := by
  refine foldl_perm h (P := fun best => Scalar.Counts best.1 ∧ Scalar.Counts best.2)
    (fun best hbest c _ => ⟨hbest.1.larger _, hbest.2.larger _⟩) ?_ ⟨.inl rfl, .inl rfl⟩
  intro best hbest c hc d hd
  have hc := (hcs c hc).states o.fromScores key
  have hd := (hcs d hd).states o.fromScores key
  exact Prod.ext (hbest.1.larger_comm hc.1 hd.1) (hbest.2.larger_comm hc.2 hd.2)

/-- So every choice has the same score. -/
theorem score_perm (h : cs.Perm cs') (hcs : ∀ c ∈ cs, c.Sound) (kind : Kind)
    (ks : List (Criterion Single)) : score kind ks cs = score kind ks cs' := by
  funext c
  unfold score
  dsimp only
  rw [Outlook.of_perm h]
  cases kind with
  | minimaxRegret =>
    unfold regretScore
    simp only [bestStates_perm h hcs]
  | _ => rfl

/-- The score of a sound choice is a number. -/
theorem isNaN_score (hc : c.Sound) (kind : Kind) (ks : List (Criterion Single))
    (cs : List (Choice Single)) : (score kind ks cs c).isNaN = false := by
  have hone : (Scalar.one : Single).isNaN = false := by decide +kernel
  have hzero : (Scalar.zero : Single).isNaN = false := by decide +kernel
  have hstates : ∀ s ∈ statesOf (Outlook.of cs) c, s.1.isNaN = false ∧ s.2.isNaN = false :=
    List.forall_mem_map.2 fun key _ => hc.states _ key
  cases kind with
  | maximax =>
    exact List.foldlRecOn _ _ (motive := fun x : Single => x.isNaN = false) hzero
      fun x hx s hs => Scalar.isNaN_larger (Scalar.isNaN_larger hx (hstates s hs).1)
        (hstates s hs).2
  | maximin =>
    show Binary.isNaN (maximinScore (Outlook.of cs) c) = false
    unfold maximinScore
    split
    · exact hzero
    · refine Scalar.isNaN_smaller ?_ (Scalar.isNaN_one_sub hc.maxRisk)
      exact List.foldlRecOn _ _ (motive := fun x : Single => x.isNaN = false) hone
        fun x hx s hs => Scalar.isNaN_smaller (Scalar.isNaN_smaller hx (hstates s hs).1)
          (hstates s hs).2
  | minimaxRegret => exact Scalar.isNaN_one_sub (Scalar.isScore_clamp _).isNaN
  | expectedValue =>
    show Binary.isNaN (expectedScore (Outlook.of cs) c) = false
    unfold expectedScore
    split
    · exact hzero
    · exact (Scalar.isScore_clamp _).isNaN
  | utilityMaximization =>
    show Binary.isNaN (utilityScore (Outlook.of cs) ks c) = false
    unfold utilityScore
    dsimp only
    split
    · exact (Scalar.isScore_clamp _).isNaN
    · exact hzero

/-- The scores come in the order of the choices. -/
theorem scores_perm (h : cs.Perm cs') (hcs : ∀ c ∈ cs, c.Sound) (kind : Kind)
    (ks : List (Criterion Single)) : scores kind ks cs' = cs'.map (score kind ks cs) := by
  unfold scores
  rw [score_perm h hcs]

/-! ## Verdicts -/

theorem decide_eq (hne : cs ≠ []) (rule : DecisionRule) (ks : List (Criterion Single)) :
    rule.decide cs ks = ⟨rule.id, rule.kind, Verdict.firstLargest (scores rule.kind ks cs),
      scores rule.kind ks cs, Score.clamp (rule.confidence *
        (0.5 + 0.5 * Verdict.decisiveness (scores rule.kind ks cs)))⟩ := by
  unfold DecisionRule.decide
  rw [if_neg (List.isEmpty_iff.not.2 hne)]

theorem isNaN_of_mem_scores (hcs : ∀ c ∈ cs, c.Sound) (kind : Kind) (ks : List (Criterion Single)) :
    ∀ x ∈ scores kind ks cs, x.isNaN = false :=
  List.forall_mem_map.2 fun c hc => isNaN_score (hcs c hc) ..

/-- A rule picks the first of the choices that it scores highest. -/
theorem isFirstLargest_selected (hcs : ∀ c ∈ cs, c.Sound) (hne : cs ≠ []) (rule : DecisionRule)
    (ks : List (Criterion Single)) :
    Verdict.IsFirstLargest (scores rule.kind ks cs) (rule.decide cs ks).selected := by
  rw [decide_eq hne]
  exact Verdict.isFirstLargest_firstLargest (by simpa [scores] using hne)
    (isNaN_of_mem_scores hcs rule.kind ks)

/-- A verdict is as confident in whatever order the choices come. -/
theorem confidence_decide_perm (h : cs.Perm cs') (hcs : ∀ c ∈ cs, c.Sound) (rule : DecisionRule)
    (ks : List (Criterion Single)) :
    (rule.decide cs' ks).confidence = (rule.decide cs ks).confidence := by
  by_cases hne : cs = []
  · subst hne
    rw [h.nil_eq]
  · have hne' : cs' ≠ [] := fun hnil => hne (hnil ▸ h).eq_nil
    have hscores : (scores rule.kind ks cs).Perm (scores rule.kind ks cs') := by
      rw [scores_perm h hcs]
      exact h.map _
    rw [decide_eq hne, decide_eq hne', Score.half_add_like
      (Verdict.decisiveness_like (isNaN_of_mem_scores hcs rule.kind ks) hscores)]

/-- A choice with a higher score than all others is picked. -/
theorem selected_decide_of_lt (hcs : ∀ c ∈ cs, c.Sound) (rule : DecisionRule)
    (ks : List (Criterion Single)) {i : Nat} (hi : cs[i]? = some c) (h : ∀ j d, j ≠ i →
      cs[j]? = some d → score rule.kind ks cs d < score rule.kind ks cs c) :
    (rule.decide cs ks).selected = i := by
  have hne : cs ≠ [] := List.ne_nil_of_mem (List.mem_of_getElem? hi)
  have hscore : (scores rule.kind ks cs)[i]? = some (score rule.kind ks cs c) := by
    simp [scores, hi]
  refine (isFirstLargest_selected hcs hne rule ks).eq_of_lt hscore fun j x hj hx => ?_
  obtain ⟨d, hd, rfl⟩ : ∃ d, cs[j]? = some d ∧ score rule.kind ks cs d = x := by
    simpa [scores] using hx
  exact h j d hj hd

/-- **Decisions do not depend on the order of the choices.**  A choice has the same score wherever
    it stands, the verdict is equally confident, and if one choice scores higher than all others,
    it is picked in both orders. -/
theorem decide_rearranged (rule : DecisionRule) (ks : List (Criterion Single))
    (cs : List (Choice Single)) (hcs : ∀ c ∈ cs, c.Scored) (σ : Equiv.Perm (Fin cs.length)) :
    let cs' := List.ofFn fun i => cs[σ i]
    (scores rule.kind ks cs').length = cs.length ∧
    (∀ i : Fin cs.length, (scores rule.kind ks cs')[i.1]? = (scores rule.kind ks cs)[(σ i).1]?) ∧
    (rule.decide cs' ks).confidence = (rule.decide cs ks).confidence ∧
    ∀ i : Fin cs.length, (∀ j : Fin cs.length, j ≠ i →
        score rule.kind ks cs cs[j] < score rule.kind ks cs cs[i]) →
      (rule.decide cs ks).selected = i ∧ (rule.decide cs' ks).selected = σ.symm i := by
  intro cs'
  have hperm : cs.Perm cs' := by
    have := Equiv.Perm.ofFn_comp_perm σ cs.get
    rw [List.ofFn_get] at this
    exact this.symm
  have hsound : ∀ c ∈ cs, c.Sound := fun c hc => (hcs c hc).sound
  refine ⟨?_, ?_, confidence_decide_perm hperm hsound rule ks, fun i hi => ⟨?_, ?_⟩⟩
  · simp [scores, cs']
  · intro i
    rw [scores_perm hperm hsound]
    simp [scores, cs']
  · refine selected_decide_of_lt hsound rule ks (List.getElem?_eq_getElem i.2) fun j d hj hd => ?_
    obtain ⟨hlt, rfl⟩ := List.getElem?_eq_some_iff.1 hd
    exact hi ⟨j, hlt⟩ fun he => hj (congrArg Fin.val he)
  · refine selected_decide_of_lt (c := cs[i]) (fun c hc => hsound c (hperm.mem_iff.2 hc)) rule ks
      (by simp [cs']) fun j d hj hd => ?_
    obtain ⟨hlt, rfl⟩ := List.getElem?_eq_some_iff.1 hd
    have hlt' : j < cs.length := by simpa [cs'] using hlt
    rw [← score_perm hperm hsound, List.getElem_ofFn]
    refine hi _ fun he => hj ?_
    rw [← he, Equiv.symm_apply_apply]

/-- Three choices, and the same with the first of them moved to the end. -/
theorem decide_rearranged_three :
    let choice (name : Text) (profit : Single) : Choice Single :=
      ⟨name, name, [], [], [(Text.ofString "profit", profit)], [(Text.ofString "delay", 0.25)],
        0.75⟩
    let cs := [choice "quick" 1, choice "steady" 0.5, choice "cheap" 0.25]
    let cs' := [choice "steady" 0.5, choice "cheap" 0.25, choice "quick" 1]
    let rule : DecisionRule := ⟨"regret", "Regret", .minimaxRegret, [], 0.5, []⟩
    (rule.decide cs' []).confidence = (rule.decide cs []).confidence ∧
    (rule.decide cs []).selected = 1 ∧ (rule.decide cs' []).selected = 0 := by
  intro choice cs cs' rule
  have hcs : ∀ c ∈ cs, c.Scored := by decide +kernel
  have hrotate : (List.ofFn fun i : Fin cs.length => cs[finRotate 3 i]) = cs' := rfl
  have hlargest : ∀ j : Fin cs.length, j ≠ (1 : Fin 3) →
      score .minimaxRegret [] cs cs[j] < score .minimaxRegret [] cs cs[(1 : Fin 3)] := by
    decide +kernel
  obtain ⟨-, -, hconfidence, hselected⟩ := decide_rearranged rule [] cs hcs (finRotate 3)
  rw [hrotate] at hconfidence hselected
  exact ⟨hconfidence, hselected (1 : Fin 3) hlargest⟩

end DecisionRule

end Reasoning
