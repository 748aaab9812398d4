/-
  Where a phrase is found.

  A search meets the occurrences of a phrase from the left and passes over one that is refused as a
  whole.  It finds the first that stands on its own among those it meets, which is not always the
  first of all: a refused occurrence may reach into another one.

  * `Text.StandsAt`: a phrase at an offset, with no word byte next to it;
  * `Text.MetAt`, `Text.findWord_eq_some_iff`: the occurrences that are met, and the one that is
    found;
  * `Text.FoundFirst`, `Text.foundFirst_iff`, `Text.unbroken_of_foundFirst`: in which texts, and for
    which phrases, the first of all is found;
  * `Text.findWord_finds_first_iff`: all of this for any phrase;
  * `Text.mem_tokens_iff`, `Text.findWord_agrees`: words of a text are found where they stand.
-/
import Mathlib.Order.Nat
import Reasoning.Proofs.Replacement

namespace Reasoning.Text

variable {w t u before behind : Text} {accept : Option UInt8 → Text → Bool}
  {previous : Option UInt8} {b : UInt8} {p q offset : Nat}

/-! ## Occurrences -/

/-- The phrase stands at an offset of the text: no word byte directly before it, none directly
    behind it. -/
def StandsAt (w t : Text) (p : Nat) : Prop :=
  ∃ before behind, t = before ++ w ++ behind ∧ before.length = p ∧
    (∀ b ∈ before.getLast?, ¬ Byte.isWord b) ∧ ∀ b ∈ behind.head?, ¬ Byte.isWord b

/-- The offsets at which a phrase is met in a text that is read from the left, each occurrence
    passed as a whole. -/
inductive MetAt (w : Text) : Text → Nat → Prop
  | here {t : Text} : MetAt w (w ++ t) 0
  | behind {t : Text} {p : Nat} : MetAt w t p → MetAt w (w ++ t) (w.length + p)
  | later {b : UInt8} {t : Text} {p : Nat} : ¬ w <+: b :: t → MetAt w t p →
      MetAt w (b :: t) (p + 1)

/-- An occurrence at an offset is accepted, where a byte may come before the text. -/
def AcceptedAt (w : Text) (accept : Option UInt8 → Text → Bool) (previous : Option UInt8) (t : Text)
    (p : Nat) : Prop :=
  accept ((t.take p).getLast?.or previous) (t.drop (p + w.length))

theorem standsAlone_iff {rest : Text} : standsAlone previous rest ↔
    (∀ b ∈ previous, ¬ Byte.isWord b) ∧ ∀ b ∈ rest.head?, ¬ Byte.isWord b := by
  simp only [standsAlone, Bool.and_eq_true, Bool.not_eq_true', any_isWord_eq_false_iff]

theorem standsAt_iff :
    w.StandsAt t p ↔ (∃ before behind, t = before ++ w ++ behind ∧ before.length = p) ∧
      AcceptedAt w standsAlone none t p := by
  unfold StandsAt AcceptedAt
  rw [Option.or_none, standsAlone_iff]
  constructor
  · rintro ⟨before, behind, rfl, rfl, h⟩
    refine ⟨⟨before, behind, rfl, rfl⟩, ?_⟩
    rwa [← List.length_append, List.drop_left, List.append_assoc, List.take_left]
  · rintro ⟨⟨before, behind, rfl, rfl⟩, h⟩
    refine ⟨before, behind, rfl, rfl, ?_⟩
    rwa [← List.length_append, List.drop_left, List.append_assoc, List.take_left] at h

theorem MetAt.exists_split (h : w.MetAt t p) :
    ∃ before behind, t = before ++ w ++ behind ∧ before.length = p := by
  induction h with
  | here => exact ⟨[], _, rfl, rfl⟩
  | behind _ ih =>
    obtain ⟨before, behind, rfl, rfl⟩ := ih
    exact ⟨w ++ before, behind, by simp, List.length_append⟩
  | later _ _ ih =>
    obtain ⟨before, behind, rfl, rfl⟩ := ih
    exact ⟨_ :: before, behind, rfl, rfl⟩

/-- Of an occurrence that is met its neighbours decide. -/
theorem MetAt.standsAt_iff (h : w.MetAt t p) :
    w.StandsAt t p ↔ AcceptedAt w standsAlone none t p := by
  rw [Text.standsAt_iff, and_iff_right h.exists_split]

/-- What is at the front of a text is passed, and its last byte comes before the rest. -/
theorem acceptedAt_append (u : Text) : AcceptedAt w accept previous (u ++ t) (u.length + p) ↔
    AcceptedAt w accept (u.getLast?.or previous) t p := by
  unfold AcceptedAt
  rw [List.take_length_add_append, List.getLast?_append, Option.or_assoc, Nat.add_assoc,
    List.drop_length_add_append]

/-! ## One step of a search -/

theorem findWhereFrom_skip (w : Text) (accept : Option UInt8 → Text → Bool)
    (previous : Option UInt8) (k offset : Nat) (t : Text) :
    findWhereFrom w accept previous k offset t =
      findWhereFrom w accept ((t.take k).getLast?.or previous) 0 (offset + k) (t.drop k) := by
  induction t generalizing previous k offset with
  | nil => cases k <;> rfl
  | cons b t ih =>
    cases k with
    | zero => rfl
    | succ k =>
      rw [findWhereFrom, ih, List.take_succ_cons, List.drop_succ_cons, getLast?_cons_or,
        Nat.add_right_comm, Nat.add_assoc]

/-- An occurrence at the beginning is found, or passed if it is refused. -/
theorem findWhereFrom_hit (hne : w ≠ []) (t : Text) :
    findWhereFrom w accept previous 0 offset (w ++ t) =
      if accept previous t then some offset
      else findWhereFrom w accept (w.getLast?.or previous) 0 (offset + w.length) t := by
  obtain ⟨a, v, rfl⟩ := List.exists_cons_of_ne_nil hne
  have hhit : (a :: v).isPrefixOf (a :: (v ++ t)) :=
    List.isPrefixOf_iff_prefix.2 (List.prefix_append (a :: v) t)
  have hdrop : (a :: (v ++ t)).drop (a :: v).length = t := by
    rw [← List.cons_append, List.drop_left]
  rw [List.cons_append, findWhereFrom, if_pos hhit, hdrop, List.length_cons, Nat.add_sub_cancel,
    findWhereFrom_skip, List.take_left, List.drop_left, getLast?_cons_or, Nat.add_right_comm,
    Nat.add_assoc]

theorem findWhereFrom_miss (h : ¬ w <+: b :: t) :
    findWhereFrom w accept previous 0 offset (b :: t) =
      findWhereFrom w accept (some b) 0 (offset + 1) t := by
  rw [findWhereFrom, if_neg fun hhit => h (List.isPrefixOf_iff_prefix.1 hhit)]

/-! ## What a search finds -/

/-- What is found is met and accepted. -/
theorem metAt_of_findWhereFrom (hne : w ≠ [])
    (h : findWhereFrom w accept previous 0 offset t = some p) :
    ∃ q, p = offset + q ∧ w.MetAt t q ∧ AcceptedAt w accept previous t q := by
  obtain ⟨pieces, hpieces⟩ : ∃ pieces, Pieces w t pieces :=
    let ⟨_, _, h⟩ := exists_pieces hne t
    ⟨_, h⟩
  induction hpieces generalizing previous offset with
  | nil => cases h
  | @hit t _ _ ih =>
    rw [findWhereFrom_hit hne] at h
    split at h
    · rename_i haccept
      cases h
      refine ⟨0, rfl, .here, ?_⟩
      unfold AcceptedAt
      rwa [Nat.zero_add, List.drop_left]
    · obtain ⟨q, rfl, hmet, haccept⟩ := ih h
      exact ⟨w.length + q, Nat.add_assoc .., .behind hmet, (acceptedAt_append w).2 haccept⟩
  | @miss b t _ _ hno _ ih =>
    rw [findWhereFrom_miss hno] at h
    obtain ⟨q, rfl, hmet, haccept⟩ := ih h
    refine ⟨q + 1, by omega, .later hno hmet, ?_⟩
    rw [Nat.add_comm]
    exact (acceptedAt_append [b]).2 haccept

/-- What is met and accepted is found, if not something before it. -/
theorem MetAt.exists_findWhereFrom (hne : w ≠ []) (h : w.MetAt t p) (offset : Nat)
    (haccept : AcceptedAt w accept previous t p) :
    ∃ q ≤ p, findWhereFrom w accept previous 0 offset t = some (offset + q) := by
  induction h generalizing previous offset with
  | @here t =>
    unfold AcceptedAt at haccept
    rw [Nat.zero_add, List.drop_left] at haccept
    exact ⟨0, Nat.le_refl _, by rw [findWhereFrom_hit hne]; exact if_pos haccept⟩
  | @behind t p _ ih =>
    rw [findWhereFrom_hit hne]
    split
    · exact ⟨0, Nat.zero_le _, rfl⟩
    · obtain ⟨q, hq, hfind⟩ := ih (offset + w.length) ((acceptedAt_append w).1 haccept)
      exact ⟨w.length + q, Nat.add_le_add_left hq _, by rw [hfind, Nat.add_assoc]⟩
  | @later b t p hno _ ih =>
    rw [Nat.add_comm] at haccept
    have hrest : AcceptedAt w accept (some b) t p := (acceptedAt_append [b]).1 haccept
    obtain ⟨q, hq, hfind⟩ := ih (offset + 1) hrest
    refine ⟨q + 1, Nat.succ_le_succ hq, ?_⟩
    rw [findWhereFrom_miss hno, hfind, Nat.add_assoc, Nat.add_comm 1]

theorem MetAt.exists_findWord (hne : w ≠ []) (h : w.MetAt t q) (hstands : w.StandsAt t q) :
    ∃ p ≤ q, t.findWord w = some p := by
  obtain ⟨p, hp, hfind⟩ := h.exists_findWhereFrom hne 0 (h.standsAt_iff.1 hstands)
  exact ⟨p, hp, by rw [findWord, findWhere_of_ne_nil hne, hfind, Nat.zero_add]⟩

/-- An answer is the least of some offsets if it is one of them, and comes no later than any. -/
theorem eq_some_iff_isLeast {answer : Option Nat} {offsets : Set Nat}
    (hsound : ∀ p, answer = some p → p ∈ offsets)
    (hcomplete : ∀ q ∈ offsets, ∃ p ≤ q, answer = some p) :
    answer = some p ↔ IsLeast offsets p := by
  constructor
  · intro h
    refine ⟨hsound p h, fun q hq => ?_⟩
    obtain ⟨r, hr, hanswer⟩ := hcomplete q hq
    obtain rfl : p = r := Option.some.inj (h.symm.trans hanswer)
    exact hr
  · rintro ⟨hp, hleast⟩
    obtain ⟨r, hr, hanswer⟩ := hcomplete p hp
    rw [hanswer, Nat.le_antisymm hr (hleast (hsound r hanswer))]

/-- **What is found.**  Of the occurrences that are met the search finds the first that stands on
    its own. -/
theorem findWord_eq_some_iff (hne : w ≠ []) :
    t.findWord w = some p ↔ IsLeast {q | w.MetAt t q ∧ w.StandsAt t q} p := by
  refine eq_some_iff_isLeast (fun p h => ?_) fun q ⟨hmet, hstands⟩ =>
    hmet.exists_findWord hne hstands
  rw [findWord, findWhere_of_ne_nil hne] at h
  obtain ⟨q, rfl, hmet, haccept⟩ := metAt_of_findWhereFrom hne h
  rw [Nat.zero_add]
  exact ⟨hmet, hmet.standsAt_iff.2 haccept⟩

theorem standsAt_of_findWord (hne : w ≠ []) (h : t.findWord w = some p) : w.StandsAt t p :=
  ((findWord_eq_some_iff hne).1 h).1.2

/-! ## The first of all -/

/-- The search finds the first place of the text at which the phrase stands, and nothing only if
    there is no such place. -/
def FoundFirst (w t : Text) : Prop := ∀ p, t.findWord w = some p ↔ IsLeast {q | w.StandsAt t q} p

theorem StandsAt.exists_isLeast (h : w.StandsAt t q) : ∃ p ≤ q, IsLeast {q | w.StandsAt t q} p := by
  classical
  have hleast : IsLeast {q | w.StandsAt t q} (Nat.find ⟨q, h⟩) := Nat.isLeast_find ⟨q, h⟩
  exact ⟨_, hleast.2 h, hleast⟩

/-- The first of all is found exactly where it is met. -/
theorem foundFirst_iff (hne : w ≠ []) :
    w.FoundFirst t ↔ ∀ p, IsLeast {q | w.StandsAt t q} p → w.MetAt t p := by
  constructor
  · exact fun h p hp => ((findWord_eq_some_iff hne).1 ((h p).2 hp)).1.1
  · intro h p
    refine eq_some_iff_isLeast (fun p hp => standsAt_of_findWord hne hp) fun q hq => ?_
    obtain ⟨first, hle, hfirst⟩ := hq.exists_isLeast
    obtain ⟨p, hp, hfind⟩ := (h first hfirst).exists_findWord hne hfirst.1
    exact ⟨p, hp.trans hle, hfind⟩

theorem FoundFirst.isSome (h : w.FoundFirst t) (hstands : w.StandsAt t q) :
    (t.findWord w).isSome := by
  obtain ⟨p, -, hp⟩ := hstands.exists_isLeast
  rw [(h p).2 hp, Option.isSome_some]

/-! ### Phrases that overlap themselves -/

theorem Unbroken.foundFirst (hw : w.Unbroken) (hne : w ≠ []) (t : Text) : w.FoundFirst t := by
  intro p
  refine eq_some_iff_isLeast (fun p hp => standsAt_of_findWord hne hp) ?_
  rintro q ⟨before, behind, rfl, rfl, hstands⟩
  have haccept : standsAlone (before.getLast?.or none) behind := by
    rwa [Option.or_none, standsAlone_iff]
  obtain ⟨p, hp, hfind⟩ : ∃ p ≤ 0 + before.length,
      findWhereFrom w standsAlone none 0 0 (before ++ w ++ behind) = some p :=
    exists_findWhereFrom hne hw
      (fun previous rest h => by rw [standsAlone, h, Bool.not_true, Bool.false_and])
      (Nat.zero_le _) haccept
  rw [← findWhere_of_ne_nil hne] at hfind
  exact ⟨p, by rwa [Nat.zero_add] at hp, hfind⟩

/-- A refused occurrence hides one that it reaches into. -/
theorem findWord_refused {a : UInt8} {rest : Text} (hne : w ≠ []) (ha : Byte.isWord a)
    (hother : ∀ b ∈ w.head?, b ≠ a) (hlength : rest.length < w.length) :
    findWord (a :: (w ++ rest)) w = none := by
  have hmiss : ¬ w <+: a :: (w ++ rest) := fun hprefix => by
    obtain ⟨b, v, rfl⟩ := List.exists_cons_of_ne_nil hne
    exact hother b rfl (List.cons_prefix_cons.1 hprefix).1
  have hrefused : ¬ standsAlone (some a) rest := by simp [standsAlone, ha]
  refine Option.eq_none_iff_forall_ne_some.2 fun p hp => ?_
  rw [findWord, findWhere_of_ne_nil hne, findWhereFrom_miss hmiss, findWhereFrom_hit hne,
    if_neg hrefused] at hp
  obtain ⟨before, behind, hsplit, -⟩ := exists_of_findWhereFrom hp
  have := congrArg List.length hsplit
  simp only [List.length_append] at this
  omega

/-- If a phrase overlaps itself behind a byte that is no word byte, it is missed in some text: of
    two overlapping occurrences with a word byte in front, the first hides the second. -/
theorem unbroken_of_foundFirst (hne : w ≠ []) (h : ∀ t, w.FoundFirst t) : w.Unbroken := by
  intro n hlt hpos ⟨rest, hrest⟩
  by_contra hlast
  have htext : w.take n ++ w = w ++ rest :=
    calc w.take n ++ w = w.take n ++ (w.drop n ++ rest) := by rw [hrest]
      _ = w ++ rest := by rw [← List.append_assoc, List.take_append_drop]
  have hlength : rest.length < w.length := by
    have := congrArg List.length hrest
    rw [List.length_append, List.length_drop] at this
    omega
  obtain ⟨a, ha, hother⟩ : ∃ a, Byte.isWord a ∧ ∀ b ∈ w.head?, b ≠ a := by
    by_cases hfirst : w.head? = some 97
    · exact ⟨98, by decide, by simp [hfirst]⟩
    · exact ⟨97, by decide, fun b hb he => hfirst (he ▸ hb)⟩
  have hstands : w.StandsAt (a :: (w ++ rest)) (n + 1) := by
    refine ⟨a :: w.take n, [], by rw [List.append_nil, List.cons_append, htext], ?_, ?_, by simp⟩
    · rw [List.length_cons, List.length_take_of_le hlt.le]
    · intro b hb hword
      have htake : w.take n ≠ [] := by simpa [hne] using Nat.ne_of_gt hpos
      rw [List.getLast?_cons_of_ne_nil htake] at hb
      exact hlast (by rw [Option.mem_def.1 hb]; exact hword)
  have hfound := (h _).isSome hstands
  rw [findWord_refused hne ha hother hlength] at hfound
  cases hfound

/-- **The search for a phrase.**  It finds the first of the occurrences that stand on their own
    among those that are met from the left.  This is the first of all that stand on their own if and
    only if that one is met; and it is so in every text if and only if the phrase does not overlap
    itself behind a byte that is no word byte. -/
theorem findWord_finds_first_iff (hne : w ≠ []) :
    (∀ t p, t.findWord w = some p ↔ IsLeast {q | w.MetAt t q ∧ w.StandsAt t q} p) ∧
    (∀ t, w.FoundFirst t ↔ ∀ p, IsLeast {q | w.StandsAt t q} p → w.MetAt t p) ∧
    ((∀ t, w.FoundFirst t) ↔ w.Unbroken) :=
  ⟨fun _ _ => findWord_eq_some_iff hne, fun _ => foundFirst_iff hne,
    unbroken_of_foundFirst hne, fun hw => hw.foundFirst hne⟩

/-- Of two equal words a later occurrence is found, and two different words are found wherever they
    stand. -/
theorem findWord_finds_first_iff_repeated :
    let same := Text.ofString "so so"
    let other := Text.ofString "so long"
    let t := Text.ofString "also so so, so so"
    same ≠ [] ∧ IsLeast {q | same.MetAt t q ∧ same.StandsAt t q} 12 ∧
      other ≠ [] ∧ other.Unbroken ∧ ∀ t, other.FoundFirst t := by
  intro same other t
  have hsame : same ≠ [] := by decide
  have hother : other ≠ [] := by decide
  have hunbroken : other.Unbroken := by decide +kernel
  obtain ⟨hfind, -, -⟩ := findWord_finds_first_iff hsame
  obtain ⟨-, -, hiff⟩ := findWord_finds_first_iff hother
  exact ⟨hsame, (hfind t 12).1 (by decide +kernel), hother, hunbroken, hiff.2 hunbroken⟩

/-- The phrase stands at the end of the text, and is not found. -/
theorem findWord_misses_overlap :
    let w := Text.ofString "so so"
    let t := Text.ofString "also so so"
    w ≠ [] ∧ w.StandsAt t 5 ∧ t.findWord w = none ∧ ¬ w.FoundFirst t := by
  intro w t
  have hstands : w.StandsAt t 5 :=
    ⟨Text.ofString "also ", [], by decide +kernel, by decide +kernel, by decide +kernel, by simp⟩
  have hnone : t.findWord w = none := by decide +kernel
  refine ⟨by decide, hstands, hnone, fun h => ?_⟩
  have hfound := h.isSome hstands
  rw [hnone] at hfound
  cases hfound

/-! ## Words -/

theorem IsWord.unbroken (h : w.IsWord) : w.Unbroken := by
  intro n _ _ _
  rw [Option.all_eq_true]
  exact fun b hb => h.word b (List.mem_of_mem_take (List.mem_of_getLast? hb))

theorem IsWord.lower (h : w.IsWord) : w.lower.IsWord where
  ne_nil := by simpa [Text.lower] using h.ne_nil
  word b hb := by
    obtain ⟨c, hc, rfl⟩ := List.mem_map.1 hb
    rw [isWord_lower]
    exact h.word c hc

/-- The words of a text are those that stand in it. -/
theorem mem_tokens_iff : w ∈ t.tokens ↔ w.IsWord ∧ w.StandsIn t := by
  rw [tokens, mem_runs_iff, ← and_assoc]
  simp only [StandsIn, Bool.not_eq_true]
  exact and_congr_left fun _ => ⟨fun h => ⟨h.1, h.2⟩, fun h => ⟨h.1, h.2⟩⟩

theorem containsWord_iff (h : w.IsWord) : t.containsWord w ↔ w.lower.StandsIn t.lower := by
  rw [containsWord, List.contains_iff_mem, words, ← tokens, mem_tokens_iff, and_iff_right h.lower]

/-- **Words are found.**  Whatever the case, a word is found in a text if and only if it is one of
    the words of the text, and the first place where it stands is found.  As its bytes are word
    bytes, it is a maximal run of them there. -/
theorem findWord_agrees (h : w.IsWord) (t : Text) :
    ((t.lower.findWord w.lower).isSome ↔ t.containsWord w) ∧
    ∀ p, t.lower.findWord w.lower = some p ↔ IsLeast {q | w.lower.StandsAt t.lower q} p := by
  have hunbroken := h.lower.unbroken
  refine ⟨?_, hunbroken.foundFirst h.lower.ne_nil t.lower⟩
  rw [isSome_findWord_iff h.lower.ne_nil hunbroken, containsWord_iff h]

/-- A word behind longer words that begin or end with it. -/
theorem findWord_agrees_can :
    let w := Text.ofString "CAN'T"
    let t := Text.ofString "scan't can't've Can't"
    w.IsWord ∧ t.containsWord w ∧ IsLeast {q | w.lower.StandsAt t.lower q} 16 := by
  intro w t
  have hw : w.IsWord := by decide +kernel
  obtain ⟨hcontains, hfirst⟩ := findWord_agrees hw t
  have hfind : t.lower.findWord w.lower = some 16 := by decide +kernel
  exact ⟨hw, hcontains.1 (by rw [hfind]; rfl), (hfirst 16).1 hfind⟩

end Reasoning.Text
