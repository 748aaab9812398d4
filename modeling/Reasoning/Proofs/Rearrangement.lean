/-
  Premises in another order.

  The search gives every antecedent a premise of its own wherever it stands, except that
  neighbouring antecedents that are nothing but a variable take premises in their order, as if
  they could always exchange them.

  * `InferenceRule.Applies`: a rule finds something;
  * `InferenceRule.Takes`: the patterns can be fitted to some premises at all;
  * `InferenceRule.Closed.applies_reordered_iff`: what a rule needs to apply to the premises in
    another order;
  * `InferenceRule.Exchangeable`, `exists_inOrder`: neighbours that can exchange their premises,
    as different variables can (`exchangeable_lone`);
  * `InferenceRule.Closed.applies_perm_iff`: rules for which the order of the premises makes no
    difference.
-/
import Mathlib.Data.List.Chain
import Mathlib.Data.List.Perm.Basic
import Mathlib.Tactic.Ring
import Reasoning.Proofs.Enumeration

namespace Reasoning.InferenceRule

/-- The rule finds at least one match. -/
def Applies (r : InferenceRule) (wss : List (List Text)) : Prop :=
  ∃ ms, r.apply wss = .ok ms ∧ ms ≠ []

/-- The patterns fit these different premises one after the other. -/
def Takes (wss : List (List Text)) (ps : List Pattern) (is : List Nat) : Prop :=
  is.Nodup ∧ ∃ b, Threaded wss ps is [] b

variable {r : InferenceRule} {ps : List Pattern} {wss wss' : List (List Text)}
  {is order : List Nat} {b c : Bindings}

theorem Takes.length_eq (h : Takes wss ps is) : is.length = ps.length := by
  obtain ⟨-, b, ht⟩ := h
  exact ht.length_eq

theorem Takes.lt_length (h : Takes wss ps is) : ∀ i ∈ is, i < wss.length := by
  obtain ⟨-, b, ht⟩ := h
  exact ht.sound.2.2.1

theorem Closed.applies_iff (h : r.Closed) :
    r.Applies wss ↔ ∃ is, Takes wss (r.antecedents.map Pattern.ofText) is ∧
      InOrder (r.antecedents.map Pattern.ofText) is := by
  obtain ⟨ms, hms, hnil⟩ := h.exists_apply wss
  have hmem := (enumerates_taken (r.antecedents.map Pattern.ofText) wss).mem_iff
  have happlies : r.Applies wss ↔ taken (r.antecedents.map Pattern.ofText) wss ≠ [] := by
    unfold Applies taken
    rw [ne_eq, List.map_eq_nil_iff, ← hnil, hms]
    simp
  rw [happlies]
  constructor
  · intro hne
    obtain ⟨⟨is, b⟩, hs⟩ := List.exists_mem_of_ne_nil _ hne
    obtain ⟨hnodup, horder, ht⟩ := (hmem is b).1 hs
    exact ⟨is, ⟨hnodup, b, ht⟩, horder⟩
  · rintro ⟨is, ⟨hnodup, b, ht⟩, horder⟩
    exact List.ne_nil_of_mem ((hmem is b).2 ⟨hnodup, horder, ht⟩)

theorem Closed.applies_of_ne (h : r.Closed) (hne : r.apply wss ≠ .ok []) : r.Applies wss := by
  obtain ⟨ms, hms, -⟩ := h.exists_apply wss
  exact ⟨ms, hms, fun he => hne (he ▸ hms)⟩

/-! ## Another order -/

/-- `wss'` has the premises of `wss` in the order of their numbers in `order`. -/
structure Reorders (order : List Nat) (wss wss' : List (List Text)) : Prop where
  perm : order.Perm (List.range wss.length)
  words : List.Forall₂ (fun ws i => wss[i]? = some ws) wss' order

theorem forall₂_range (wss : List (List Text)) :
    List.Forall₂ (fun ws i => wss[i]? = some ws) wss (List.range wss.length) := by
  rw [List.forall₂_iff_get]
  refine ⟨List.length_range.symm, fun i h₁ h₂ => ?_⟩
  simp

theorem reorders_refl (wss : List (List Text)) : Reorders (List.range wss.length) wss wss :=
  ⟨.refl _, forall₂_range wss⟩

theorem exists_reorders (h : wss.Perm wss') : ∃ order, Reorders order wss wss' := by
  obtain ⟨order, hwords, hperm⟩ := List.perm_comp_forall₂ h.symm (forall₂_range wss)
  exact ⟨order, hperm, hwords⟩

theorem exists_perm (h : order.Perm (List.range wss.length)) :
    ∃ wss', wss.Perm wss' ∧ Reorders order wss wss' := by
  obtain ⟨wss', hwords, hperm⟩ := List.perm_comp_forall₂ h (forall₂_range wss).flip
  exact ⟨wss', hperm.symm, h, hwords.flip⟩

namespace Reorders

theorem nodup (h : Reorders order wss wss') : order.Nodup := h.perm.nodup_iff.2 List.nodup_range

theorem mem_iff (h : Reorders order wss wss') {i : Nat} : i ∈ order ↔ i < wss.length := by
  rw [h.perm.mem_iff, List.mem_range]

/-- The premise of a place in the new order. -/
theorem getElem? (h : Reorders order wss wss') {i j : Nat} (hj : order[j]? = some i) :
    wss'[j]? = wss[i]? := by
  obtain ⟨hlt, rfl⟩ := List.getElem?_eq_some_iff.1 hj
  have hlt' : j < wss'.length := h.words.length_eq ▸ hlt
  rw [List.getElem?_eq_getElem hlt']
  exact (h.words.get hlt' hlt).symm

theorem getElem?_idxOf (h : Reorders order wss wss') {i : Nat} (hi : i < wss.length) :
    wss'[order.idxOf i]? = wss[i]? := by
  have hmem := h.mem_iff.2 hi
  exact h.getElem? (List.getElem?_idxOf hmem)

end Reorders

/-- Patterns fit premises with the same words wherever they stand. -/
theorem Threaded.map {f : Nat → Nat} (h : Threaded wss ps is b c)
    (hf : ∀ i ∈ is, wss'[f i]? = wss[i]?) : Threaded wss' ps (is.map f) b c := by
  induction h with
  | nil => exact .nil
  | cons hi hfit _ ih =>
    obtain ⟨hfi, hf⟩ := List.forall_mem_cons.1 hf
    exact .cons (hfi.trans hi) hfit (ih hf)

theorem Takes.map {f : Nat → Nat} (h : Takes wss ps is)
    (hinj : ∀ i ∈ is, ∀ j ∈ is, f i = f j → i = j)
    (hf : ∀ i ∈ is, wss'[f i]? = wss[i]?) : Takes wss' ps (is.map f) := by
  obtain ⟨hnodup, b, ht⟩ := h
  exact ⟨List.Nodup.map_on hinj hnodup, b, ht.map hf⟩

/-- What is taken of the premises in another order is taken of the premises, at the places that
    they have in that order. -/
theorem Reorders.takes_iff (h : Reorders order wss wss') {js : List Nat} :
    Takes wss' ps js ↔ ∃ is, Takes wss ps is ∧ is.map order.idxOf = js := by
  constructor
  · intro hjs
    have hget : ∀ j ∈ js, order[j]? = some (order.getD j 0) := fun j hj => by
      have hlt : j < order.length := h.words.length_eq ▸ hjs.lt_length j hj
      rw [List.getD_eq_getElem?_getD, List.getElem?_eq_getElem hlt, Option.getD_some]
    have hplace : ∀ j ∈ js, order.idxOf (order.getD j 0) = j := fun j hj => by
      obtain ⟨hlt, he⟩ := List.getElem?_eq_some_iff.1 (hget j hj)
      rw [← he]
      exact h.nodup.idxOf_getElem j hlt
    refine ⟨js.map (order.getD · 0), hjs.map (fun i hi j hj he => ?_) fun j hj => ?_, ?_⟩
    · rw [← hplace i hi, he, hplace j hj]
    · exact (h.getElem? (hget j hj)).symm
    · rw [List.map_map]
      exact (List.map_congr_left hplace).trans (List.map_id js)
  · rintro ⟨is, his, rfl⟩
    refine his.map (fun i hi j _ he => ?_) fun i hi => h.getElem?_idxOf (his.lt_length i hi)
    exact (List.idxOf_inj (h.mem_iff.2 (his.lt_length i hi))).1 he

/-- A rule applies to premises in another order if it can take some of them in this order where
    neighbouring antecedents are nothing but a variable. -/
theorem Closed.applies_reordered_iff (h : r.Closed) (hw : Reorders order wss wss') :
    r.Applies wss' ↔ ∃ is, Takes wss (r.antecedents.map Pattern.ofText) is ∧
      InOrder (r.antecedents.map Pattern.ofText) (is.map order.idxOf) := by
  rw [h.applies_iff]
  constructor
  · rintro ⟨js, hjs, horder⟩
    obtain ⟨is, his, rfl⟩ := hw.takes_iff.1 hjs
    exact ⟨is, his, horder⟩
  · rintro ⟨is, his, horder⟩
    exact ⟨_, hw.takes_iff.2 ⟨is, his, rfl⟩, horder⟩

/-! ## Neighbours that exchange their premises -/

/-- Neighbouring patterns that are nothing but a variable can exchange the premises they take. -/
def Exchangeable (wss : List (List Text)) (ps : List Pattern) : Prop :=
  ∀ ps₁ p q ps₂, ps = ps₁ ++ p :: q :: ps₂ → p.isBare → q.isBare →
    ∀ is₁ i j is₂, is₁.length = ps₁.length → Takes wss ps (is₁ ++ i :: j :: is₂) →
      Takes wss ps (is₁ ++ j :: i :: is₂)

theorem exchangeable_of_no_neighbours (h : ps.IsChain fun p q => ¬ (p.isBare ∧ q.isBare)) :
    Exchangeable wss ps := by
  rintro ps₁ p q ps₂ rfl hp hq
  exact absurd ⟨hp, hq⟩ (List.isChain_iff_forall_rel_of_append_cons_cons.1 h rfl)

/-- A pattern that is nothing but one variable. -/
def lone (x : Text) : Pattern := ⟨[[.var x]]⟩

theorem capture_rest {b : Bindings} {x : Text} {taken ws : List Text} (hws : ws ≠ [])
    (hu : Unreserved ws) :
    Template.capture (fun taken rest => Template.fit [] rest (b.insert x taken)) taken ws =
      some (b.insert x (taken ++ ws)) := by
  induction ws generalizing taken with
  | nil => exact absurd rfl hws
  | cons w ws ih =>
    obtain ⟨hw, hu⟩ := List.forall_mem_cons.1 hu
    rw [Template.capture, if_neg (by simp [hw])]
    cases ws with
    | nil => rfl
    | cons v ws =>
      rw [ih (List.cons_ne_nil v ws) hu, List.append_assoc, List.singleton_append]
      rfl

/-- A new variable takes a whole atomic statement. -/
theorem fit_lone {x : Text} {ws : List Text} (hx : b.get? x = none) :
    (lone x).fit ws b = if isAtomic ws then some (b.insert x ws) else none := by
  have hadmits : Pattern.admits [.var x] ws b ↔ isAtomic ws := by
    rw [Pattern.admits_iff]
    refine ⟨fun h => h x rfl hx, fun h y _ _ => h⟩
  unfold lone Pattern.fit
  rw [List.findSome?_singleton]
  by_cases h : isAtomic ws
  · have hwords := h
    simp only [isAtomic, Bool.and_eq_true, Bool.not_eq_true', List.isEmpty_eq_false_iff,
      List.all_eq_true] at hwords
    have hu : Unreserved ws := fun w hw => by
      have := hwords.2 w hw
      simp only [isConnectiveWord, Bool.or_eq_false_iff] at this
      exact this.1
    rw [if_pos (hadmits.2 h), if_pos h, Template.fit_unbound hx, capture_rest hwords.1 hu,
      List.nil_append]
  · rw [if_neg (mt hadmits.1 h), if_neg h]

/-- Different variables take any atomic statements one after the other. -/
theorem threaded_lone_iff {xs : List Text} (hxs : xs.Nodup) (hb : ∀ x ∈ xs, b.get? x = none) :
    (∃ c, Threaded wss (xs.map lone) is b c) ↔
      is.length = xs.length ∧ ∀ i ∈ is, ∃ ws, wss[i]? = some ws ∧ isAtomic ws := by
  induction xs generalizing is b with
  | nil =>
    constructor
    · rintro ⟨c, ⟨⟩⟩
      exact ⟨rfl, List.forall_mem_nil _⟩
    · rintro ⟨hlength, -⟩
      obtain rfl := List.length_eq_zero_iff.1 hlength
      exact ⟨b, .nil⟩
  | cons x xs ih =>
    obtain ⟨hx, hb⟩ := List.forall_mem_cons.1 hb
    obtain ⟨hnotin, hxs⟩ := List.nodup_cons.1 hxs
    have hinsert (ws : List Text) : ∀ y ∈ xs, Dict.get? (b.insert x ws) y = none := fun y hy => by
      have hne : y ≠ x := fun he => hnotin (he ▸ hy)
      rw [Dict.get?_insert_ne b ws hne, hb y hy]
    constructor
    · rintro ⟨c, ht⟩
      cases ht with
      | @cons _ _ i is ws _ b₁ _ hi hfit hrest =>
        rw [fit_lone hx] at hfit
        split at hfit
        · rename_i hatomic
          cases hfit
          obtain ⟨hlength, hall⟩ := (ih hxs (hinsert ws)).1 ⟨c, hrest⟩
          exact ⟨congrArg (· + 1) hlength, List.forall_mem_cons.2 ⟨⟨ws, hi, hatomic⟩, hall⟩⟩
        · cases hfit
    · rintro ⟨hlength, hall⟩
      cases is with
      | nil => cases hlength
      | cons i is =>
        obtain ⟨⟨ws, hi, hatomic⟩, hall⟩ := List.forall_mem_cons.1 hall
        obtain ⟨c, hrest⟩ := (ih hxs (hinsert ws)).2 ⟨Nat.succ.inj hlength, hall⟩
        exact ⟨c, .cons hi (by rw [fit_lone hx, if_pos hatomic]) hrest⟩

/-- Different variables can exchange the premises they take. -/
theorem exchangeable_lone {xs : List Text} (hxs : xs.Nodup) : Exchangeable wss (xs.map lone) := by
  intro _ _ _ _ _ _ _ is₁ i j is₂ _ h
  obtain ⟨hnodup, ht⟩ := h
  have hswap : (is₁ ++ i :: j :: is₂).Perm (is₁ ++ j :: i :: is₂) :=
    (List.Perm.swap j i is₂).append_left is₁
  obtain ⟨hlength, hall⟩ := (threaded_lone_iff hxs fun _ _ => rfl).1 ht
  refine ⟨hswap.nodup_iff.1 hnodup, (threaded_lone_iff hxs fun _ _ => rfl).2 ⟨?_, ?_⟩⟩
  · rw [← hswap.length_eq, hlength]
  · exact fun k hk => hall k (hswap.mem_iff.2 hk)

/-- Numbers weigh more the further they stand to the front. -/
def frontWeight : List Nat → Nat
  | [] => 0
  | n :: ns => (ns.length + 1) * n + frontWeight ns

/-- The weight goes down when a smaller number moves to the front. -/
theorem frontWeight_exchange (ns : List Nat) {m n : Nat} (h : n < m) (ms : List Nat) :
    frontWeight (ns ++ n :: m :: ms) < frontWeight (ns ++ m :: n :: ms) := by
  induction ns with
  | nil =>
    simp only [List.nil_append, frontWeight, List.length_cons]
    ring_nf
    omega
  | cons k ns ih =>
    simp only [List.cons_append, frontWeight, List.length_append, List.length_cons]
    omega

/-- Patterns that do not take premises in their order have neighbours that could exchange them. -/
theorem exists_of_not_inOrder (hlength : is.length = ps.length) (h : ¬ InOrder ps is) :
    ∃ ps₁ p q ps₂ is₁ i j is₂, ps = ps₁ ++ p :: q :: ps₂ ∧ is = is₁ ++ i :: j :: is₂ ∧
      is₁.length = ps₁.length ∧ p.isBare ∧ q.isBare ∧ j ≤ i := by
  unfold InOrder at h
  rw [List.isChain_iff_forall_rel_of_append_cons_cons] at h
  push Not at h
  obtain ⟨⟨p, i⟩, ⟨q, j⟩, l₁, l₂, hsplit, hp, hq, hle⟩ := h
  have hps := congrArg (List.map Prod.fst) hsplit
  have his := congrArg (List.map Prod.snd) hsplit
  rw [List.map_fst_zip hlength.ge, List.map_append] at hps
  rw [List.map_snd_zip hlength.le, List.map_append] at his
  exact ⟨_, p, q, _, _, i, j, _, hps, his, by simp, hp, hq, hle⟩

/-- Where neighbours can exchange their premises they can take them in whatever order. -/
theorem exists_inOrder (hexchange : Exchangeable wss ps) (h : Takes wss ps is) {f : Nat → Nat}
    (hf : ∀ i < wss.length, ∀ j < wss.length, f i = f j → i = j) :
    ∃ is, Takes wss ps is ∧ InOrder ps (is.map f) := by
  -- Every exchange moves a smaller number to the front.
  induction hweight : frontWeight (is.map f) using Nat.strong_induction_on generalizing is with
  | _ weight ih =>
    by_cases horder : InOrder ps (is.map f)
    · exact ⟨is, h, horder⟩
    · obtain ⟨ps₁, p, q, ps₂, ns₁, m, n, ns₂, hps, hns, hlength, hp, hq, hle⟩ :=
        exists_of_not_inOrder (by rw [List.length_map, h.length_eq]) horder
      obtain ⟨is₁, rest, rfl, rfl, hrest⟩ := List.map_eq_append_iff.1 hns
      obtain ⟨i, rest, rfl, rfl, hlast⟩ := List.map_eq_cons_iff.1 hrest
      obtain ⟨j, is₂, rfl, rfl, rfl⟩ := List.map_eq_cons_iff.1 hlast
      rw [List.length_map] at hlength
      have hexchanged := hexchange ps₁ p q ps₂ hps hp hq is₁ i j is₂ hlength h
      have hlt : f j < f i := by
        refine lt_of_le_of_ne hle fun he => ?_
        have hji := hf j (h.lt_length j (by simp)) i (h.lt_length i (by simp)) he
        have hnodup := h.1
        rw [hji, List.nodup_append] at hnodup
        simp at hnodup
      refine ih _ ?_ hexchanged rfl
      rw [← hweight]
      simp only [List.map_append, List.map_cons]
      exact frontWeight_exchange _ hlt _

/-! ## Any order -/

/-- Whatever can be taken at all is in order if the premises stand in the order in which they are
    taken. -/
theorem exists_order (h : Takes wss ps is) :
    ∃ order : List Nat, order.Perm (List.range wss.length) ∧ InOrder ps (is.map order.idxOf) := by
  have hnodup := h.1
  refine ⟨is ++ (List.range wss.length).filter (· ∉ is), ?_, ?_⟩
  · rw [List.perm_ext_iff_of_nodup ?_ List.nodup_range]
    · intro i
      simp only [List.mem_append, List.mem_filter, List.mem_range, decide_eq_true_eq]
      have := h.lt_length i
      tauto
    · refine hnodup.append (List.nodup_range.filter _) fun i hi hi' => ?_
      exact of_decide_eq_true (List.mem_filter.1 hi').2 hi
  · have hplaces : is.map (is ++ (List.range wss.length).filter (· ∉ is)).idxOf =
        List.range is.length := by
      refine List.ext_getElem (by simp) fun k hk hk' => ?_
      rw [List.getElem_map, List.getElem_range, List.idxOf_append_of_mem (List.getElem_mem _)]
      exact hnodup.idxOf_getElem k _
    rw [hplaces]
    by_contra hnot
    obtain ⟨_, _, _, _, is₁, i, j, is₂, -, hsplit, -, -, -, hle⟩ :=
      exists_of_not_inOrder (by rw [List.length_range, h.length_eq]) hnot
    have hsorted := List.pairwise_lt_range (n := is.length)
    rw [hsplit, List.pairwise_append, List.pairwise_cons] at hsorted
    exact absurd (hsorted.2.1.1 j (List.mem_cons_self ..)) hle.not_gt

/-- **When the order of the premises makes no difference.**  A closed rule applies to all orders of
    the premises or to none if and only if there is nothing that it can take of them, or it can take
    some of them in every order in which they may stand, where neighbouring antecedents that are
    nothing but a variable take theirs in this order.  It does wherever such neighbours can exchange
    their premises, as the search takes it that they can, and so if there are no such neighbours. -/
theorem Closed.applies_perm_iff (h : r.Closed) (wss : List (List Text)) :
    let ps := r.antecedents.map Pattern.ofText
    ((∀ wss', wss.Perm wss' → (r.Applies wss' ↔ r.Applies wss)) ↔
      ∀ is, Takes wss ps is → ∀ order : List Nat, order.Perm (List.range wss.length) →
        ∃ js, Takes wss ps js ∧ InOrder ps (js.map order.idxOf)) ∧
    (Exchangeable wss ps → ∀ wss', wss.Perm wss' → (r.Applies wss' ↔ r.Applies wss)) := by
  intro ps
  have hsame : (∀ is, Takes wss ps is → ∀ order : List Nat, order.Perm (List.range wss.length) →
      ∃ js, Takes wss ps js ∧ InOrder ps (js.map order.idxOf)) →
      ∀ wss', wss.Perm wss' → (r.Applies wss' ↔ r.Applies wss) := by
    intro hall wss' hperm
    obtain ⟨order, horder⟩ := exists_reorders hperm
    rw [h.applies_reordered_iff horder, h.applies_reordered_iff (reorders_refl wss)]
    constructor
    · rintro ⟨is, his, -⟩
      exact hall is his _ (.refl _)
    · rintro ⟨is, his, -⟩
      exact hall is his _ horder.perm
  refine ⟨⟨fun hperm is his order horder => ?_, hsame⟩, fun hexchange => ?_⟩
  · obtain ⟨first, hfirst, hinorder⟩ := exists_order his
    obtain ⟨wss₁, hperm₁, hreorders₁⟩ := exists_perm hfirst
    obtain ⟨wss₂, hperm₂, hreorders₂⟩ := exists_perm horder
    have happlies : r.Applies wss₁ := (h.applies_reordered_iff hreorders₁).2 ⟨is, his, hinorder⟩
    rw [hperm _ hperm₁, ← hperm _ hperm₂] at happlies
    exact (h.applies_reordered_iff hreorders₂).1 happlies
  · refine hsame fun is his order horder => exists_inOrder hexchange his fun i hi j _ he => ?_
    exact (List.idxOf_inj (horder.mem_iff.2 (List.mem_range.2 hi))).1 he

/-- Modus ponens and conjunction apply to these premises in whatever order they come: the one has no
    neighbouring antecedents that are nothing but a variable, and those of the other exchange. -/
theorem applies_perm_iff_modus_ponens_conjunction :
    let ponens : InferenceRule := ⟨"modus_ponens", "Modus Ponens", .deduction,
      Text.ofStrings ["P", "if P then Q"], "Q", 0.95, []⟩
    let conjunction : InferenceRule := ⟨"conjunction", "Conjunction", .deduction,
      Text.ofStrings ["P", "Q"], "P and Q", 0.8, []⟩
    let wss := [Text.tokens "if it rains then the road is wet", Text.tokens "it is late",
      Text.tokens "it rains"]
    (ponens.Closed ∧ Exchangeable wss (ponens.antecedents.map Pattern.ofText)) ∧
      (conjunction.Closed ∧ Exchangeable wss (conjunction.antecedents.map Pattern.ofText)) ∧
      ∀ wss', wss.Perm wss' → ponens.Applies wss' ∧ conjunction.Applies wss' := by
  intro ponens conjunction wss
  have hclosed : ponens.Closed := ⟨by decide, by decide⟩
  have hclosed' : conjunction.Closed := ⟨by decide, by decide⟩
  have hexchange : Exchangeable wss (ponens.antecedents.map Pattern.ofText) :=
    exchangeable_of_no_neighbours (by decide)
  have hexchange' : Exchangeable wss (conjunction.antecedents.map Pattern.ofText) :=
    by
    have hnodup : (Text.ofStrings ["P", "Q"]).Nodup := by decide
    exact exchangeable_lone hnodup
  refine ⟨⟨hclosed, hexchange⟩, ⟨hclosed', hexchange'⟩, fun wss' hperm => ⟨?_, ?_⟩⟩
  · exact ((hclosed.applies_perm_iff wss).2 hexchange wss' hperm).2
      (hclosed.applies_of_ne (by decide))
  · exact ((hclosed'.applies_perm_iff wss).2 hexchange' wss' hperm).2
      (hclosed'.applies_of_ne (by decide))

/-- An explanation is found only if what is explained stands before what explains it: the two are
    nothing but a variable, but the third antecedent does not let them exchange their premises. -/
theorem applies_in_one_order :
    let r : InferenceRule := ⟨"explanation", "Explanation", .abduction,
      Text.ofStrings ["P", "Q", "if Q then P"], "Q explains P", 0.6, []⟩
    let wss := [Text.tokens "it rains", Text.tokens "the road is wet",
      Text.tokens "if it rains then the road is wet"]
    let wss' := [Text.tokens "the road is wet", Text.tokens "it rains",
      Text.tokens "if it rains then the road is wet"]
    r.Closed ∧ wss.Perm wss' ∧ ¬ r.Applies wss ∧ r.Applies wss' := by
  intro r wss wss'
  have hclosed : r.Closed := ⟨by decide, by decide⟩
  have hnone : r.apply wss = .ok [] := by decide
  refine ⟨hclosed, by decide, ?_, hclosed.applies_of_ne (by decide)⟩
  rintro ⟨ms, hms, hne⟩
  exact hne (Except.ok.inj (hms.symm.trans hnone))

end Reasoning.InferenceRule
