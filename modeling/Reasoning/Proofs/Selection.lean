/-
  The largest of some numbers, and how clearly it stands out.

  * `Binary.Like`: numbers that are the same but for the sign of a zero, which is all that
    comparisons leave open;
  * `Verdict.IsFirstLargest`, `Verdict.isFirstLargest_firstLargest`: the place that a verdict picks;
  * `Verdict.Descends`, `Verdict.descending_spec`: numbers from the largest to the smallest;
  * `Verdict.decisiveness_like`: how clearly the largest stands out does not depend on the order.
-/
import Mathlib.Data.List.Basic
import Mathlib.Data.List.Induction
import Mathlib.Data.List.TakeWhile
import Reasoning.Decision.Verdict
import Reasoning.Proofs.Order

namespace Reasoning

/-! ## Numbers up to the sign of zero -/

namespace Binary

variable {f : Format} {x y x' y' : Binary f}

theorem le_trans {z : Binary f} (h : x ≤ y) (h' : y ≤ z) : x ≤ z := by
  obtain ⟨hx, -, hle⟩ := le_iff.1 h
  obtain ⟨-, hz, hle'⟩ := le_iff.1 h'
  exact le_iff.2 ⟨hx, hz, Int.le_trans hle hle'⟩

/-- The same number, maybe zero with another sign. -/
def Like (x y : Binary f) : Prop := x = y ∨ ∃ a b, x = zero a ∧ y = zero b

theorem Like.refl (x : Binary f) : x.Like x := .inl rfl

theorem Like.trans {z : Binary f} (h : x.Like y) (h' : y.Like z) : x.Like z := by
  rcases h with rfl | ⟨a, b, rfl, rfl⟩
  · exact h'
  · rcases h' with rfl | ⟨c, d, -, rfl⟩
    · exact .inr ⟨a, b, rfl, rfl⟩
    · exact .inr ⟨a, d, rfl, rfl⟩

theorem signed_inj {a b : Bool} {m n : Nat} (h : signed a m = signed b n) :
    m = n ∧ (a = b ∨ m = 0) := by
  cases a <;> cases b <;> simp only [signed, Bool.false_eq_true, if_true, if_false] at h <;>
    refine ⟨by omega, ?_⟩
  · exact .inl rfl
  · exact .inr (by omega)
  · exact .inr (by omega)
  · exact .inl rfl

/-- Numbers of one rank differ in the sign of zero only. -/
theorem like_of_rank_eq (hx : x.isNaN = false) (hy : y.isNaN = false) (h : x.rank = y.rank) :
    x.Like y := by
  have htop : Nat.pow 2 f.top ≠ 0 := Nat.ne_of_gt (Nat.two_pow_pos _)
  cases x with
  | nan => cases hx
  | infinite a =>
    cases y with
    | nan => cases hy
    | infinite b =>
      obtain ⟨-, rfl | hzero⟩ := signed_inj h
      · exact .refl _
      · exact absurd hzero htop
    | finite b n hn => exact absurd (signed_inj h).1 (Nat.ne_of_gt hn.1)
  | finite a m hm =>
    cases y with
    | nan => cases hy
    | infinite b => exact absurd (signed_inj h).1 (Nat.ne_of_lt hm.1)
    | finite b n hn =>
      obtain ⟨rfl, rfl | rfl⟩ := signed_inj h
      · exact .refl _
      · exact .inr ⟨a, b, rfl, rfl⟩

theorem Like.neg (h : x.Like y) : (-x).Like (-y) := by
  rcases h with rfl | ⟨a, b, rfl, rfl⟩
  · exact .refl _
  · exact .inr ⟨!a, !b, rfl, rfl⟩

theorem add_comm (x y : Binary f) : x + y = y + x := by
  cases x with
  | nan => cases y <;> rfl
  | infinite a =>
    cases y with
    | nan => rfl
    | infinite b =>
      show (if a = b then infinite a else nan) = if b = a then infinite b else nan
      by_cases h : a = b
      · rw [h]
      · rw [if_neg h, if_neg (Ne.symm h)]
    | finite b n hn => rfl
  | finite a m hm =>
    cases y with
    | nan => rfl
    | infinite b => rfl
    | finite b n hn =>
      show (if signed a m + signed b n = 0 then zero (a && b) else _) =
        if signed b n + signed a m = 0 then zero (b && a) else _
      rw [Int.add_comm, Bool.and_comm]

/-- The sign of a zero is lost in a sum, unless the sum is zero. -/
theorem zero_add_like (a b : Bool) (x : Binary f) : (zero a + x).Like (zero b + x) := by
  cases x with
  | nan => exact .refl _
  | infinite c => exact .refl _
  | finite c n hn =>
    show Like (if signed a 0 + signed c n = 0 then _ else _)
      (if signed b 0 + signed c n = 0 then _ else _)
    have hzero (a : Bool) : signed a 0 = 0 := by cases a <;> rfl
    rw [hzero, hzero]
    split
    · exact .inr ⟨_, _, rfl, rfl⟩
    · exact .refl _

theorem Like.add_right (h : x.Like y) (z : Binary f) : (x + z).Like (y + z) := by
  rcases h with rfl | ⟨a, b, rfl, rfl⟩
  · exact .refl _
  · exact zero_add_like a b z

theorem Like.sub (hx : x.Like x') (hy : y.Like y') : (x - y).Like (x' - y') := by
  show (x + -y).Like (x' + -y')
  refine (hx.add_right _).trans ?_
  rw [add_comm x', add_comm x']
  exact hy.neg.add_right _

end Binary

/-- Twice a zero is one, and clamping keeps it. -/
theorem Score.clamp_double_like {x y : Single} (h : x.Like y) :
    (clamp (2 * x)).Like (clamp (2 * y)) := by
  rcases h with rfl | ⟨a, b, rfl, rfl⟩
  · exact .refl _
  · have hzero : ∀ a, clamp (2 * (Binary.zero a : Single)) = Binary.zero a := by decide +kernel
    exact .inr ⟨a, b, hzero a, hzero b⟩

/-- A half and half of a number, whichever sign it has if it is zero. -/
theorem Score.half_add_like {x y : Single} (h : x.Like y) :
    (0.5 + 0.5 * x : Single) = 0.5 + 0.5 * y := by
  rcases h with rfl | ⟨a, b, rfl, rfl⟩
  · rfl
  · have hzero : ∀ a, (0.5 + 0.5 * Binary.zero a : Single) = 0.5 := by decide +kernel
    rw [hzero, hzero]

/-! ## The first of the largest -/

namespace Verdict

open Binary

variable {xs ys : List Single} {x y : Single} {i : Nat}

/-- The number at the place is larger than those before it and not smaller than those behind. -/
def IsFirstLargest (xs : List Single) (i : Nat) : Prop :=
  ∃ before x after, xs = before ++ x :: after ∧ before.length = i ∧ (∀ y ∈ before, y < x) ∧
    ∀ y ∈ after, y ≤ x

/-- No number is larger than the first of the largest. -/
theorem forall_le_of_split {before after : List Single} (hx : x.isNaN = false)
    (hbefore : ∀ y ∈ before, y < x) (hafter : ∀ y ∈ after, y ≤ x) :
    ∀ y ∈ before ++ x :: after, y ≤ x := by
  intro y hy
  rw [List.mem_append, List.mem_cons] at hy
  rcases hy with hy | rfl | hy
  · exact le_of_lt (hbefore y hy)
  · exact le_refl hx
  · exact hafter y hy

/-- A verdict picks the first of the largest numbers. -/
theorem isFirstLargest_firstLargest (hne : xs ≠ []) (hxs : ∀ x ∈ xs, x.isNaN = false) :
    IsFirstLargest xs (firstLargest xs) := by
  obtain ⟨y, ys, rfl⟩ := List.exists_cons_of_ne_nil hne
  suffices h : ∃ before x after, y :: ys = before ++ x :: after ∧
      (ys.zipIdx 1).foldl (fun best y => if best.1 < y.1 then y else best) (y, 0) =
        (x, before.length) ∧ (∀ z ∈ before, z < x) ∧ ∀ z ∈ after, z ≤ x by
    obtain ⟨before, x, after, hsplit, hfold, hbefore, hafter⟩ := h
    refine ⟨before, x, after, hsplit, ?_, hbefore, hafter⟩
    unfold firstLargest
    rw [List.zipIdx_cons]
    exact (congrArg Prod.snd hfold).symm
  -- The best number so far is the first of the largest so far.
  induction ys using List.reverseRecOn with
  | nil => exact ⟨[], y, [], rfl, rfl, by simp, by simp⟩
  | append_singleton ys z ih =>
    have hys : ∀ x ∈ y :: ys, x.isNaN = false := fun x hx => hxs x (by
      rw [← List.cons_append]
      exact List.mem_append_left _ hx)
    obtain ⟨before, x, after, hsplit, hfold, hbefore, hafter⟩ := ih (by simp) hys
    have hz : z.isNaN = false := hxs z (by simp)
    have hx : x.isNaN = false := hys x (by simp [hsplit])
    rw [List.zipIdx_append, List.foldl_append, hfold]
    show ∃ before x after, _ ∧ (if _ < z then (z, 1 + ys.length) else _) = _ ∧ _
    dsimp only
    split
    · rename_i hlt
      have hle := forall_le_of_split hx hbefore hafter
      rw [← hsplit] at hle
      exact ⟨y :: ys, z, [], rfl, by rw [List.length_cons, Nat.add_comm],
        fun w hw => lt_of_le_of_lt (hle w hw) hlt, by simp⟩
    · rename_i hle
      refine ⟨before, x, after ++ [z], by rw [← List.cons_append, hsplit]; simp, rfl, hbefore, ?_⟩
      intro w hw
      rcases List.mem_append.1 hw with hw | hw
      · exact hafter w hw
      · rw [List.mem_singleton.1 hw]
        exact le_of_not_lt hx hz hle

theorem IsFirstLargest.lt_length (h : IsFirstLargest xs i) : i < xs.length := by
  obtain ⟨before, x, after, rfl, rfl, -⟩ := h
  simp

/-- A number that all others are smaller than is the first of the largest. -/
theorem IsFirstLargest.eq_of_lt {j : Nat} (h : IsFirstLargest xs i) (hy : xs[j]? = some y)
    (hlt : ∀ k x, k ≠ j → xs[k]? = some x → x < y) : i = j := by
  obtain ⟨before, x, after, rfl, rfl, hbefore, hafter⟩ := h
  by_contra hne
  have hx : x < y := hlt before.length x hne (by simp)
  have hle : y ≤ x := forall_le_of_split (lt_iff.1 hx).1 hbefore hafter y
    (List.mem_of_getElem? hy)
  exact not_lt_of_le hle hx

/-! ## Descending order -/

/-- No number is smaller than one behind it. -/
def Descends (xs : List Single) : Prop := xs.Pairwise fun x y => y ≤ x

/-- A number is put between those that are not smaller and those that are. -/
theorem Descends.insertDescending (h : Descends xs) (x : Single) :
    ∃ large small, xs = large ++ small ∧ insertDescending x xs = large ++ x :: small ∧
      (∀ y ∈ large.getLast?, ¬ y < x) ∧ ∀ y ∈ small, y < x := by
  unfold Verdict.insertDescending
  split
  · rename_i hhead
    refine ⟨[], xs, rfl, rfl, by simp, ?_⟩
    cases xs with
    | nil => simp
    | cons z zs =>
      have hz : z < x := by simpa using hhead
      refine List.forall_mem_cons.2 ⟨hz, fun y hy => ?_⟩
      exact lt_of_le_of_lt ((List.pairwise_cons.1 h).1 y hy) hz
  · dsimp only
    generalize hsmall : xs.reverse.takeWhile (fun y => decide (y < x)) = small
    generalize hlarge : xs.reverse.dropWhile (fun y => decide (y < x)) = large
    have hsplit : xs = large.reverse ++ small.reverse := by
      rw [← List.reverse_append, ← hsmall, ← hlarge, List.takeWhile_append_dropWhile,
        List.reverse_reverse]
    refine ⟨large.reverse, small.reverse, hsplit, ?_, ?_, ?_⟩
    · have hlength : xs.length - small.length = large.reverse.length := by
        rw [hsplit]
        simp
      rw [hlength, hsplit, List.take_left]
    · intro y hy
      rw [List.getLast?_reverse, ← hlarge] at hy
      have := List.head?_dropWhile_not (fun y => decide (y < x)) xs.reverse
      rw [hy] at this
      simpa using this
    · intro y hy
      rw [List.mem_reverse, ← hsmall] at hy
      simpa using List.mem_takeWhile_imp hy

/-- A list in descending order stays so when a number is put in. -/
theorem Descends.insert (h : Descends xs) (hxs : ∀ y ∈ xs, y.isNaN = false)
    (hx : x.isNaN = false) :
    (Verdict.insertDescending x xs).Perm (x :: xs) ∧ Descends (Verdict.insertDescending x xs) := by
  obtain ⟨large, small, rfl, hinsert, hlarge, hsmall⟩ := h.insertDescending x
  obtain ⟨hdl, hds, hdls⟩ := List.pairwise_append.1 h
  have hbound : ∀ y ∈ large, x ≤ y := by
    intro y hy
    rcases List.eq_nil_or_concat' large with rfl | ⟨init, last, rfl⟩
    · cases hy
    · have hlast : x ≤ last := le_of_not_lt (hxs last (by simp)) hx (hlarge last (by simp))
      rcases List.mem_append.1 hy with hy | hy
      · exact le_trans hlast ((List.pairwise_append.1 hdl).2.2 y hy last (by simp))
      · rwa [List.mem_singleton.1 hy]
  rw [hinsert]
  refine ⟨List.perm_middle, List.pairwise_append.2 ⟨hdl, List.pairwise_cons.2 ⟨?_, hds⟩, ?_⟩⟩
  · exact fun y hy => le_of_lt (hsmall y hy)
  · exact fun y hy => List.forall_mem_cons.2 ⟨hbound y hy, hdls y hy⟩

/-- All the numbers, in descending order. -/
theorem descending_spec (hxs : ∀ x ∈ xs, x.isNaN = false) :
    (descending xs).Perm xs ∧ Descends (descending xs) := by
  induction xs using List.reverseRecOn with
  | nil => exact ⟨.nil, List.Pairwise.nil⟩
  | append_singleton xs x ih =>
    obtain ⟨hperm, hdesc⟩ := ih fun y hy => hxs y (List.mem_append_left _ hy)
    have hnan : ∀ y ∈ descending xs, y.isNaN = false := fun y hy =>
      hxs y (List.mem_append_left _ (hperm.mem_iff.1 hy))
    obtain ⟨hinsert, hdesc'⟩ := hdesc.insert hnan (hxs x (by simp))
    rw [show descending (xs ++ [x]) = insertDescending x (descending xs) from List.foldl_append]
    exact ⟨hinsert.trans ((hperm.cons x).trans (List.perm_append_singleton ..).symm), hdesc'⟩

theorem isNaN_of_mem_descending (hxs : ∀ x ∈ xs, x.isNaN = false) :
    ∀ x ∈ descending xs, x.isNaN = false := fun x hx =>
  hxs x ((descending_spec hxs).1.mem_iff.1 hx)

/-- Numbers in another order come to the same in descending order, zeros of either sign apart. -/
theorem map_rank_descending (hxs : ∀ x ∈ xs, x.isNaN = false) (h : xs.Perm ys) :
    (descending xs).map rank = (descending ys).map rank := by
  obtain ⟨hperm, hdesc⟩ := descending_spec hxs
  obtain ⟨hperm', hdesc'⟩ := descending_spec fun y hy => hxs y (h.mem_iff.2 hy)
  have hranks {zs : List Single} (h : Descends zs) : (zs.map rank).Pairwise (· ≥ ·) :=
    List.pairwise_map.2 (h.imp fun hle => (le_iff.1 hle).2.2)
  exact ((hperm.trans (h.trans hperm'.symm)).map rank).eq_of_pairwise
    (fun a b _ _ => fun hba hab => Int.le_antisymm hab hba) (hranks hdesc) (hranks hdesc')

/-- The largest stands out as clearly in whatever order the numbers come. -/
theorem decisiveness_like (hxs : ∀ x ∈ xs, x.isNaN = false) (h : xs.Perm ys) :
    (decisiveness xs).Like (decisiveness ys) := by
  have hmem := isNaN_of_mem_descending hxs
  have hmem' := isNaN_of_mem_descending fun y hy => hxs y (h.mem_iff.2 hy)
  have hrank := map_rank_descending hxs h
  unfold decisiveness
  generalize descending xs = ds at hmem hrank ⊢
  generalize descending ys = es at hmem' hrank ⊢
  rcases ds with _ | ⟨a, _ | ⟨b, ds⟩⟩ <;> rcases es with _ | ⟨c, _ | ⟨d, es⟩⟩ <;> simp at hrank
  · exact .refl _
  · exact .refl _
  · obtain ⟨hac, hbd, -⟩ := hrank
    have hac : a.Like c := like_of_rank_eq (hmem a (by simp)) (hmem' c (by simp)) hac
    have hbd : b.Like d := like_of_rank_eq (hmem b (by simp)) (hmem' d (by simp)) hbd
    exact Score.clamp_double_like (hac.sub hbd)

end Verdict

end Reasoning
