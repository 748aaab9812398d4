/-
  What searches in a text find.

  A search passes over a hit that is refused as a whole.  It misses nothing by that if the word
  cannot overlap itself behind a byte that no accepted hit has before it.

  * `Text.Unbroken`: where a word overlaps itself, there is a word byte before the overlap;
  * `Text.exists_of_findWhereFrom`, `Text.exists_findWhereFrom`: what is found is there, and what is
    there is found, or something before it;
  * `Text.StandsIn`, `Text.isSome_findWord_iff`: whole words;
  * `Text.AppliedIn`, `Text.isSome_findApplication_iff`: symbols in front of parentheses;
  * `Text.AppliedIn.standsIn_lower`: such a symbol is a whole word, in small letters too.
-/
import Mathlib.Data.List.Infix
import Mathlib.Data.List.TakeWhile
import Reasoning.Modal.Detection
import Reasoning.Text.Search

namespace Reasoning.Text

variable {w t before behind : Text} {accept : Option UInt8 → Text → Bool} {previous : Option UInt8}

/-! ## Hits -/

/-- Where the word can overlap itself, there is a word byte in front of the overlap. -/
def Unbroken (w : Text) : Prop :=
  ∀ n < w.length, 0 < n → w.drop n <+: w → (w.take n).getLast?.all Byte.isWord

instance (w : Text) : Decidable w.Unbroken :=
  inferInstanceAs (Decidable (∀ n < w.length, 0 < n → w.drop n <+: w →
    (w.take n).getLast?.all Byte.isWord))

theorem getLast?_cons_or (b : UInt8) (t : Text) (previous : Option UInt8) :
    ((b :: t).getLast?).or previous = t.getLast?.or (some b) := by
  rw [List.getLast?_cons]
  cases t.getLast? <;> rfl

/-- The text that a search finds is there. -/
theorem exists_of_findWhereFrom {k offset p : Nat}
    (h : findWhereFrom w accept previous k offset t = some p) :
    ∃ before behind, t = before ++ w ++ behind ∧ p = offset + before.length ∧
      accept (before.getLast?.or previous) behind := by
  induction t generalizing previous k offset with
  | nil => cases h
  | cons b t ih =>
    have hlater {k : Nat} (h : findWhereFrom w accept (some b) k (offset + 1) t = some p) :
        ∃ before behind, b :: t = before ++ w ++ behind ∧ p = offset + before.length ∧
          accept (before.getLast?.or previous) behind := by
      obtain ⟨before, behind, rfl, hp, haccept⟩ := ih h
      refine ⟨b :: before, behind, rfl, by rw [hp, List.length_cons]; omega, ?_⟩
      rwa [getLast?_cons_or]
    cases k with
    | succ k => exact hlater h
    | zero =>
      unfold findWhereFrom at h
      split at h
      · rename_i hhit
        split at h
        · rename_i haccept
          cases h
          obtain ⟨behind, hbehind⟩ := List.isPrefixOf_iff_prefix.1 hhit
          refine ⟨[], behind, hbehind.symm, rfl, ?_⟩
          rwa [← hbehind, List.drop_left] at haccept
        · exact hlater h
      · exact hlater h

/-- A hit that overlaps one at the beginning has a word byte before it. -/
theorem Unbroken.overlap (h : w.Unbroken) (hhit : w <+: before ++ w ++ behind)
    (hpos : before ≠ []) (hlt : before.length < w.length) :
    (before.getLast?.or previous).any Byte.isWord := by
  have hbefore : before <+: w :=
    List.prefix_of_prefix_length_le ((List.prefix_append ..).trans (List.prefix_append ..)) hhit
      hlt.le
  obtain ⟨rest, rfl⟩ := hbefore
  have hrest : rest <+: before ++ rest := by
    rw [List.append_assoc, List.prefix_append_right_inj] at hhit
    exact List.prefix_of_prefix_length_le hhit (List.prefix_append ..) (by simp)
  have hword := h before.length hlt (List.length_pos_iff.2 hpos) (by simpa using hrest)
  rw [List.take_left, List.getLast?_eq_some_getLast hpos] at hword
  simpa [List.getLast?_eq_some_getLast hpos] using hword

/-- A hit that is accepted is found, if not one before it: a refused hit overlaps it only if a word
    byte stands before it. -/
theorem exists_findWhereFrom (hne : w ≠ []) (hw : w.Unbroken)
    (haccept : ∀ previous rest, previous.any Byte.isWord → accept previous rest = false)
    {k offset : Nat} (hk : k ≤ before.length) (h : accept (before.getLast?.or previous) behind) :
    ∃ p ≤ offset + before.length,
      findWhereFrom w accept previous k offset (before ++ w ++ behind) = some p := by
  induction before generalizing previous k offset with
  | nil =>
    obtain ⟨b, u, rfl⟩ := List.exists_cons_of_ne_nil hne
    obtain rfl : k = 0 := Nat.le_zero.1 hk
    refine ⟨offset, Nat.le_refl _, ?_⟩
    show findWhereFrom (b :: u) accept previous 0 offset (b :: (u ++ behind)) = _
    unfold findWhereFrom
    rw [if_pos, if_pos]
    · show accept previous (List.drop _ (b :: u ++ behind)) = true
      rwa [List.drop_left]
    · exact List.isPrefixOf_iff_prefix.2 (List.prefix_append (b :: u) behind)
  | cons b before ih =>
    rw [getLast?_cons_or] at h
    have hlater {k : Nat} (hk : k ≤ before.length) : ∃ p ≤ offset + (b :: before).length,
        findWhereFrom w accept (some b) k (offset + 1) (before ++ w ++ behind) = some p := by
      obtain ⟨p, hp, hfind⟩ : ∃ p ≤ offset + 1 + before.length,
          findWhereFrom w accept (some b) k (offset + 1) (before ++ w ++ behind) = some p := ih hk h
      exact ⟨p, by rw [List.length_cons]; omega, hfind⟩
    cases k with
    | succ k => exact hlater (Nat.le_of_succ_le_succ hk)
    | zero =>
      show ∃ p ≤ _, findWhereFrom w accept previous 0 offset (b :: (before ++ w ++ behind)) = _
      unfold findWhereFrom
      split
      · rename_i hhit
        split
        · exact ⟨offset, Nat.le_add_right .., rfl⟩
        · refine hlater (Nat.le_of_not_lt fun hlt => ?_)
          have hword : ((b :: before).getLast?.or previous).any Byte.isWord :=
            hw.overlap (List.isPrefixOf_iff_prefix.1 hhit) (List.cons_ne_nil _ _)
              (by rw [List.length_cons]; omega)
          rw [getLast?_cons_or] at hword
          rw [haccept _ _ hword] at h
          cases h
      · exact hlater (Nat.zero_le _)

/-- The search succeeds just when there is something to find. -/
theorem isSome_findWhere_iff (hne : w ≠ []) (hw : w.Unbroken)
    (haccept : ∀ previous rest, previous.any Byte.isWord → accept previous rest = false) :
    (t.findWhere w accept).isSome ↔
      ∃ before behind, t = before ++ w ++ behind ∧ accept before.getLast? behind := by
  rw [findWhere_of_ne_nil hne]
  constructor
  · intro h
    obtain ⟨p, hp⟩ := Option.isSome_iff_exists.1 h
    obtain ⟨before, behind, ht, -, hbehind⟩ := exists_of_findWhereFrom hp
    exact ⟨before, behind, ht, by rwa [Option.or_none] at hbehind⟩
  · rintro ⟨before, behind, rfl, h⟩
    rw [← Option.or_none (o := before.getLast?)] at h
    obtain ⟨p, -, hp⟩ := exists_findWhereFrom hne hw haccept (Nat.zero_le _) h
    exact Option.isSome_iff_exists.2 ⟨p, hp⟩

/-! ## Words and applications -/

/-- The word stands in the text as a whole: no word byte directly before it, none directly
    behind it. -/
def StandsIn (w t : Text) : Prop :=
  ∃ before behind, t = before ++ w ++ behind ∧
    (∀ b ∈ before.getLast?, ¬ Byte.isWord b) ∧ ∀ b ∈ behind.head?, ¬ Byte.isWord b

/-- The symbol stands in the text in application form: no word byte directly before it, and behind
    it, maybe after spaces, a parenthesis. -/
def AppliedIn (w t : Text) : Prop :=
  ∃ before behind, t = before ++ w ++ behind ∧
    (∀ b ∈ before.getLast?, ¬ Byte.isWord b) ∧
    ∃ n rest, behind = List.replicate n ' '.toUInt8 ++ '('.toUInt8 :: rest

theorem any_isWord_eq_false_iff {b : Option UInt8} :
    b.any Byte.isWord = false ↔ ∀ c ∈ b, ¬ Byte.isWord c := by
  cases b <;> simp

theorem isSome_findWord_iff (hne : w ≠ []) (hw : w.Unbroken) :
    (t.findWord w).isSome ↔ w.StandsIn t := by
  unfold findWord StandsIn
  rw [isSome_findWhere_iff hne hw]
  · simp only [standsAlone, Bool.and_eq_true, Bool.not_eq_true', any_isWord_eq_false_iff]
  · intro previous rest h
    rw [standsAlone, h, Bool.not_true, Bool.false_and]

/-- Behind bytes of one kind, maybe none, comes another byte. -/
theorem head?_dropWhile_eq_some_iff {b c : UInt8} (hne : c ≠ b) :
    (t.dropWhile (· == b)).head? = some c ↔ ∃ n rest, t = List.replicate n b ++ c :: rest := by
  constructor
  · intro h
    obtain ⟨rest, hrest⟩ := List.head?_eq_some_iff.1 h
    have hspaces : t.takeWhile (· == b) = List.replicate (t.takeWhile (· == b)).length b :=
      List.eq_replicate_of_mem fun x hx => by simpa using List.mem_takeWhile_imp hx
    refine ⟨(t.takeWhile (· == b)).length, rest, ?_⟩
    rw [← hspaces, ← hrest, List.takeWhile_append_dropWhile]
  · rintro ⟨n, rest, rfl⟩
    rw [List.dropWhile_append_of_pos fun x hx => by simp [List.eq_of_mem_replicate hx],
      List.dropWhile_cons_of_neg (by simpa using hne), List.head?_cons]

theorem isSome_findApplication_iff (hne : w ≠ []) (hw : w.Unbroken) :
    (t.findApplication w).isSome ↔ w.AppliedIn t := by
  unfold findApplication AppliedIn
  rw [isSome_findWhere_iff hne hw]
  · simp only [Bool.and_eq_true, Bool.not_eq_true', any_isWord_eq_false_iff, beq_iff_eq]
    simp only [head?_dropWhile_eq_some_iff (show '('.toUInt8 ≠ ' '.toUInt8 by decide)]
  · intro previous rest h
    rw [h, Bool.not_true, Bool.false_and]

theorem isSome_find?_iff : (t.find? w).isSome ↔ w <:+: t := by
  induction t with
  | nil => cases w <;> simp [find?]
  | cons b t ih =>
    rw [find?, List.infix_cons_iff, ← ih, ← List.isPrefixOf_iff_prefix]
    split <;> simp_all

/-! ## Case -/

theorem isWord_lower : ∀ b, Byte.isWord (Byte.lower b) = Byte.isWord b := by
  decide +kernel

/-- Where a symbol is applied, it stands as a whole word, whatever the case. -/
theorem AppliedIn.standsIn_lower (h : w.AppliedIn t) : w.lower.StandsIn t.lower := by
  obtain ⟨before, behind, rfl, hbefore, n, rest, rfl⟩ := h
  refine ⟨before.lower, lower (List.replicate n ' '.toUInt8 ++ '('.toUInt8 :: rest), ?_, ?_, ?_⟩
  · simp only [lower, List.map_append]
  · intro b hb
    rw [lower, List.getLast?_map] at hb
    obtain ⟨c, hc, rfl⟩ := Option.map_eq_some_iff.1 hb
    rw [isWord_lower]
    exact hbefore c hc
  · intro b hb
    cases n with
    | zero =>
      cases hb
      decide
    | succ n =>
      cases hb
      decide

end Reasoning.Text
