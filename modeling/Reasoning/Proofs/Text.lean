/-
  Words, and statements with the same words.

  * `Text.runs_append_cons`: a text falls into words at every byte that is no word byte;
  * `Text.mem_runs_iff`: words are the pieces between such bytes;
  * `Text.canonical_trim`: space around a statement does not change its canonical form;
  * `Text.trim_lower`, `Text.trim_trim`: trimming and small letters;
  * `Text.splitWhere_eq_singleton`, `Text.infix_left_of_infix_append`: parts of a text;
  * `Text.ofNat_inj`: the digits of a number;
  * `Text.sameWords_append_iff`: words that agree with others in two parts.
-/
import Mathlib.Data.List.DropRight
import Mathlib.Data.List.Infix
import Mathlib.Data.List.TakeWhile
import Reasoning.Text.Words

namespace Reasoning.Text

/-! ## Same words -/

theorem sameWords_iff {a b : List Text} : sameWords a b ↔ a.map lower = b.map lower := by
  simp [sameWords]

theorem sameWords_refl (a : List Text) : sameWords a a := sameWords_iff.2 rfl

theorem sameWords_symm {a b : List Text} (h : sameWords a b) : sameWords b a :=
  sameWords_iff.2 (sameWords_iff.1 h).symm

theorem sameWords_trans {a b c : List Text} (h₁ : sameWords a b) (h₂ : sameWords b c) :
    sameWords a c :=
  sameWords_iff.2 ((sameWords_iff.1 h₁).trans (sameWords_iff.1 h₂))

theorem sameWords_length {a b : List Text} (h : sameWords a b) : a.length = b.length := by
  simpa using congrArg List.length (sameWords_iff.1 h)

@[simp] theorem sameWords_nil_left {b : List Text} : sameWords [] b ↔ b = [] := by
  rw [sameWords_iff, List.map_nil, eq_comm, List.map_eq_nil_iff]

theorem sameWords_append {a b c d : List Text} (h₁ : sameWords a c) (h₂ : sameWords b d) :
    sameWords (a ++ b) (c ++ d) := by
  rw [sameWords_iff] at h₁ h₂ ⊢
  rw [List.map_append, List.map_append, h₁, h₂]

/-- Words that begin with some words, whatever the case, fall into two parts. -/
theorem sameWords_append_iff {a b ws : List Text} :
    sameWords (a ++ b) ws ↔ sameWords (ws.take a.length) a ∧ sameWords b (ws.drop a.length) := by
  constructor
  · intro h
    have he := sameWords_iff.1 h
    rw [List.map_append] at he
    constructor
    · rw [sameWords_iff, List.map_take, ← he, List.take_left' (by simp)]
    · rw [sameWords_iff, List.map_drop, ← he, List.drop_left' (by simp)]
  · rintro ⟨h₁, h₂⟩
    have := sameWords_append (sameWords_symm h₁) h₂
    rwa [List.take_append_drop] at this

/-! ## Words of a text -/

section
variable {p : UInt8 → Bool}

theorem runs_cons_break {b : UInt8} (hb : p b = false) (t : Text) : runs p (b :: t) = runs p t := by
  simp [runs, hb]

theorem runs_cons {b : UInt8} (hb : p b = true) (t : Text) :
    runs p (b :: t) = match t, runs p t with
      | c :: _, w :: ws => if p c then (b :: w) :: ws else [b] :: w :: ws
      | _, ws => [b] :: ws := by
  rw [runs.eq_def p (b :: t)]
  simp only [hb, Bool.not_true, Bool.false_eq_true, if_false]
  rfl

theorem runs_ne_nil {b : UInt8} (hb : p b = true) (t : Text) : runs p (b :: t) ≠ [] := by
  rw [runs_cons hb]
  split
  · split <;> simp
  · simp

/-- A word byte before a break is a word of its own. -/
theorem runs_cons_of_break {b d : UInt8} (hb : p b = true) (hd : p d = false) (t : Text) :
    runs p (b :: d :: t) = [b] :: runs p (d :: t) := by
  rw [runs_cons hb]
  cases runs p (d :: t) <;> simp [hd]

/-- A word byte before a word byte belongs to its word. -/
theorem runs_cons_of_word {b d : UInt8} (hb : p b = true) (hd : p d = true) (t : Text) :
    ∃ w ws, runs p (d :: t) = w :: ws ∧ runs p (b :: d :: t) = (b :: w) :: ws := by
  obtain ⟨w, ws, hw⟩ := List.exists_cons_of_ne_nil (runs_ne_nil hd t)
  refine ⟨w, ws, hw, ?_⟩
  rw [runs_cons hb, hw]
  simp [hd]

/-- **Words end at a break.**  All that is said about words follows from this equation. -/
theorem runs_append_cons {c : UInt8} (hc : p c = false) (s t : Text) :
    runs p (s ++ c :: t) = runs p s ++ runs p t := by
  induction s with
  | nil => exact runs_cons_break hc t
  | cons b s ih =>
    cases hb : p b with
    | false => rw [List.cons_append, runs_cons_break hb, runs_cons_break hb, ih]
    | true =>
      cases s with
      | nil =>
        rw [List.cons_append, List.nil_append, runs_cons_of_break hb hc, runs_cons_break hc]
        simp [runs, hb]
      | cons d s =>
        simp only [List.cons_append] at ih ⊢
        cases hd : p d with
        | false => rw [runs_cons_of_break hb hd, runs_cons_of_break hb hd, ih, List.cons_append]
        | true =>
          obtain ⟨w, ws, h₁, h₂⟩ := runs_cons_of_word hb hd s
          obtain ⟨w', ws', h₁', h₂'⟩ := runs_cons_of_word hb hd (s ++ c :: t)
          rw [ih, h₁, List.cons_append, List.cons.injEq] at h₁'
          obtain ⟨rfl, rfl⟩ := h₁'
          rw [h₂, h₂', List.cons_append]

theorem runs_eq_nil {t : Text} (h : ∀ b ∈ t, p b = false) : runs p t = [] := by
  induction t with
  | nil => rfl
  | cons b t ih =>
    rw [runs_cons_break (h b (by simp)), ih fun c hc => h c (by simp [hc])]

theorem runs_word {w : Text} (hne : w ≠ []) (h : ∀ b ∈ w, p b) : runs p w = [w] := by
  induction w with
  | nil => exact absurd rfl hne
  | cons b w ih =>
    obtain ⟨hb, hw⟩ := List.forall_mem_cons.1 h
    cases w with
    | nil => simp [runs, hb]
    | cons d w =>
      obtain ⟨v, vs, hv, hruns⟩ := runs_cons_of_word hb (hw d (List.mem_cons_self ..)) w
      obtain ⟨rfl, rfl⟩ := List.cons.inj (hv.symm.trans (ih (List.cons_ne_nil d w) hw))
      exact hruns

/-- A text is without breaks, or it begins so and goes on with a break and another text. -/
@[elab_as_elim]
theorem breaks_induction {motive : Text → Prop} (whole : ∀ s, (∀ b ∈ s, p b) → motive s)
    (cut : ∀ s c t, (∀ b ∈ s, p b) → p c = false → motive t → motive (s ++ c :: t)) (t : Text) :
    motive t := by
  suffices h : ∀ s, (∀ b ∈ s, p b) → motive (s ++ t) from h [] (List.forall_mem_nil _)
  induction t with
  | nil =>
    intro s hs
    rw [List.append_nil]
    exact whole s hs
  | cons c t ih =>
    intro s hs
    cases hc : p c with
    | false => exact cut s c t hs hc (ih [] (List.forall_mem_nil _))
    | true =>
      rw [List.append_cons]
      exact ih (s ++ [c]) (List.forall_mem_append.2 ⟨hs, by simpa using hc⟩)

/-- **Runs are maximal.**  A run of a text is a piece of it without breaks, and at its ends there
    are breaks or the ends of the text. -/
theorem mem_runs_iff {w t : Text} : w ∈ runs p t ↔ w ≠ [] ∧ (∀ b ∈ w, p b) ∧
    ∃ before behind, t = before ++ w ++ behind ∧
      (∀ b ∈ before.getLast?, p b = false) ∧ ∀ b ∈ behind.head?, p b = false := by
  constructor
  · intro h
    have hwhole {s : Text} (hs : ∀ b ∈ s, p b) (h : w ∈ runs p s) : w ≠ [] ∧ w = s := by
      by_cases hne : s = []
      · subst hne
        cases h
      · rw [runs_word hne hs, List.mem_singleton] at h
        exact ⟨h ▸ hne, h⟩
    induction t using breaks_induction (p := p) with
    | whole s hs =>
      obtain ⟨hne, rfl⟩ := hwhole hs h
      exact ⟨hne, hs, [], [], (List.append_nil _).symm, by simp, by simp⟩
    | cut s c t hs hc ih =>
      rw [runs_append_cons hc] at h
      rcases List.mem_append.1 h with h | h
      · obtain ⟨hne, rfl⟩ := hwhole hs h
        exact ⟨hne, hs, [], c :: t, rfl, by simp, by simpa using hc⟩
      · obtain ⟨hne, hw, before, behind, rfl, hbefore, hbehind⟩ := ih h
        refine ⟨hne, hw, s ++ c :: before, behind, by simp, fun b hb => ?_, hbehind⟩
        rw [List.getLast?_append, List.getLast?_cons] at hb
        cases hlast : before.getLast? with
        | none =>
          rw [hlast] at hb
          cases hb
          exact hc
        | some d =>
          rw [hlast] at hb
          cases hb
          exact hbefore _ hlast
  · rintro ⟨hne, hw, before, behind, rfl, hbefore, hbehind⟩
    have hfront : w ∈ runs p (w ++ behind) := by
      cases behind with
      | nil => simp [runs_word hne hw]
      | cons c rest => simp [runs_append_cons (hbehind c rfl), runs_word hne hw]
    cases before using List.reverseRecOn with
    | nil => exact hfront
    | append_singleton init c =>
      have hc : p c = false := hbefore c (by simp)
      rw [List.append_assoc, List.append_assoc, List.singleton_append, runs_append_cons hc]
      exact List.mem_append_right _ hfront

theorem ne_nil_of_mem_runs {t w : Text} (h : w ∈ runs p t) : w ≠ [] := (mem_runs_iff.1 h).1

theorem mem_of_mem_runs {t w : Text} (h : w ∈ runs p t) : ∀ b ∈ w, p b := (mem_runs_iff.1 h).2.1

theorem runs_map (f : UInt8 → UInt8) (t : Text) :
    runs p (t.map f) = (runs (p ∘ f) t).map (List.map f) := by
  induction t with
  | nil => rfl
  | cons b t ih =>
    cases hb : p (f b) with
    | false => rw [List.map_cons, runs_cons_break hb, runs_cons_break (p := p ∘ f) hb, ih]
    | true =>
      cases t with
      | nil => simp [runs, hb]
      | cons d t =>
        cases hd : p (f d) with
        | false =>
          rw [List.map_cons, List.map_cons, runs_cons_of_break hb hd, ← List.map_cons, ih,
            runs_cons_of_break (p := p ∘ f) hb hd]
          rfl
        | true =>
          obtain ⟨v, vs, hv, hruns⟩ := runs_cons_of_word hb hd (t.map f)
          obtain ⟨v', vs', hv', hruns'⟩ := runs_cons_of_word (p := p ∘ f) hb hd t
          rw [List.map_cons, hv, hv', List.map_cons, List.cons.injEq] at ih
          rw [List.map_cons, List.map_cons, hruns, hruns', ih.1, ih.2]
          rfl

/-- Breaks around a text belong to no word. -/
theorem runs_between {s t u : Text} (hs : ∀ b ∈ s, p b = false) (hu : ∀ b ∈ u, p b = false) :
    runs p (s ++ t ++ u) = runs p t := by
  have front : ∀ {s : Text}, (∀ b ∈ s, p b = false) → runs p (s ++ t) = runs p t := by
    intro s hs
    induction s with
    | nil => rfl
    | cons b s ih =>
      rw [List.cons_append, runs_cons_break (hs b (by simp)), ih fun c hc => hs c (by simp [hc])]
  cases u with
  | nil => rw [List.append_nil, front hs]
  | cons c u =>
    have hnil : runs p u = [] := runs_eq_nil fun b hb => hu b (List.mem_cons_of_mem _ hb)
    rw [runs_append_cons (hu c (List.mem_cons_self ..)), front hs, hnil, List.append_nil]

end

theorem isWord_lower_of_isSpace :
    ∀ {b}, Byte.isSpace b = true → Byte.isWord (Byte.lower b) = false := by
  decide +kernel

theorem isAlnum_of_isSpace : ∀ {b}, Byte.isSpace b = true → Byte.isAlnum b = false := by
  decide +kernel

theorem isSpace_of_isAlnum : ∀ {b}, Byte.isAlnum b → Byte.isSpace b = false := by
  decide +kernel

/-- A text is its trimmed text with space around it. -/
theorem exists_trim (t : Text) : ∃ s u, t = s ++ trim t ++ u ∧
    (∀ b ∈ s, Byte.isSpace b = true) ∧ ∀ b ∈ u, Byte.isSpace b = true := by
  refine ⟨t.takeWhile Byte.isSpace,
    ((t.dropWhile Byte.isSpace).reverse.takeWhile Byte.isSpace).reverse, ?_, ?_, ?_⟩
  · rw [trim, List.append_assoc, ← List.reverse_append, List.takeWhile_append_dropWhile,
      List.reverse_reverse, List.takeWhile_append_dropWhile]
  · exact fun b hb => List.mem_takeWhile_imp hb
  · exact fun b hb => List.mem_takeWhile_imp (List.mem_reverse.1 hb)

theorem words_trim (t : Text) : words (trim t) = words t := by
  obtain ⟨s, u, ht, hs, hu⟩ := exists_trim t
  have hw : ∀ {s : Text}, (∀ b ∈ s, Byte.isSpace b = true) →
      ∀ b ∈ lower s, Byte.isWord b = false := by
    intro s hs b hb
    obtain ⟨c, hc, rfl⟩ := List.mem_map.1 hb
    exact isWord_lower_of_isSpace (hs c hc)
  have hl : lower t = lower s ++ lower (trim t) ++ lower u := by
    rw [lower, lower, lower, lower, ← List.map_append, ← List.map_append, ← ht]
  rw [words, words, hl, runs_between (hw hs) (hw hu)]

theorem hasAlnum_trim (t : Text) : hasAlnum (trim t) = hasAlnum t := by
  obtain ⟨s, u, ht, hs, hu⟩ := exists_trim t
  have hn : ∀ {s : Text}, (∀ b ∈ s, Byte.isSpace b = true) → s.any Byte.isAlnum = false := by
    intro s hs
    rw [List.any_eq_false]
    exact fun b hb => by simp [isAlnum_of_isSpace (hs b hb)]
  unfold hasAlnum
  conv => rhs; rw [ht]
  rw [List.any_append, List.any_append, hn hs, hn hu, Bool.false_or, Bool.or_false]

theorem canonical_trim (t : Text) : canonical (trim t) = canonical t := by
  rw [canonical, words_trim, canonical]

/-! ## Trimmed texts and small letters -/

theorem isSpace_lower : ∀ b, Byte.isSpace (Byte.lower b) = Byte.isSpace b := by
  decide +kernel

theorem isAlnum_lower : ∀ b, Byte.isAlnum (Byte.lower b) = Byte.isAlnum b := by
  decide +kernel

theorem lower_lower (t : Text) : t.lower.lower = t.lower := by
  have hbyte : ∀ b, Byte.lower (Byte.lower b) = Byte.lower b := by decide +kernel
  unfold lower
  rw [List.map_map]
  exact List.map_congr_left fun b _ => hbyte b

/-- Small letters and cut space do not get in each other's way. -/
theorem trim_lower (t : Text) : t.lower.trim = t.trim.lower := by
  have hspace : Byte.isSpace ∘ Byte.lower = Byte.isSpace := funext isSpace_lower
  unfold trim lower
  rw [List.dropWhile_map, hspace, ← List.map_reverse, List.dropWhile_map, hspace, List.map_reverse]

theorem trim_trim (t : Text) : t.trim.trim = t.trim := by
  -- What is cut behind is cut from a text that begins with no space.
  have hfront : t.trim.dropWhile Byte.isSpace = t.trim := by
    cases hcons : t.trim with
    | nil => rfl
    | cons b rest =>
      have hprefix : t.trim <+: t.dropWhile Byte.isSpace :=
        List.rdropWhile_prefix Byte.isSpace _
      obtain ⟨after, hafter⟩ := hprefix
      have hhead := List.head?_dropWhile_not Byte.isSpace t
      rw [← hafter, hcons] at hhead
      exact List.dropWhile_cons_of_neg (Bool.eq_false_iff.1 hhead)
  have hback : t.trim.reverse.dropWhile Byte.isSpace = t.trim.reverse := by
    unfold trim
    rw [List.reverse_reverse, List.dropWhile_idempotent]
  show ((t.trim.dropWhile Byte.isSpace).reverse.dropWhile Byte.isSpace).reverse = t.trim
  rw [hfront, hback, List.reverse_reverse]

/-! ## Parts -/

section
variable {s t u : Text}

theorem splitWhere_eq_singleton {sep : UInt8 → Bool} (h : ∀ b ∈ t, sep b = false) :
    splitWhere sep t = [t] := by
  induction t with
  | nil => rfl
  | cons b t ih =>
    obtain ⟨hb, ht⟩ := List.forall_mem_cons.1 h
    rw [splitWhere, if_neg (by simp [hb]), ih ht]

/-- What ends with a byte that a piece does not have stands before the piece. -/
theorem infix_left_of_infix_append (hs : ∀ b ∈ s.getLast?, b ∉ t) (h : s <:+: u ++ t) :
    s <:+: u := by
  induction t using List.reverseRecOn with
  | nil => rwa [List.append_nil] at h
  | append_singleton t b ih =>
    rw [← List.append_assoc, List.infix_concat_iff] at h
    rcases h with hsuffix | h
    · -- At the end of the text it would end with the byte `b` of the piece.
      rcases List.eq_nil_or_concat s with rfl | ⟨s, d, rfl⟩
      · exact List.nil_infix
      · obtain ⟨front, hfront⟩ := hsuffix
        rw [List.concat_eq_append, ← List.append_assoc] at hfront
        exact (hs b (by simp [(List.append_inj' hfront rfl).2]) (by simp)).elim
    · exact ih (fun d hd hmem => hs d hd (List.mem_append_left _ hmem)) h

end

/-! ## Numbers -/

theorem ofString_inj {s t : String} : ofString s = ofString t ↔ s = t := by
  refine ⟨fun h => ?_, congrArg ofString⟩
  exact String.toByteArray_inj.1 (ByteArray.ext (Array.toList_inj.1 h))

/-- A number is read back from its digits. -/
theorem ofNat_inj {m n : Nat} : ofNat m = ofNat n ↔ m = n := by
  refine ⟨fun h => ?_, congrArg ofNat⟩
  have hrepr : m.repr = n.repr := ofString_inj.1 h
  have hdigits : Nat.toDigits 10 m = Nat.toDigits 10 n := by
    rw [← Nat.toList_repr, ← Nat.toList_repr, hrepr]
  rw [← Nat.ofDigitChars_ten_toDigits (n := m), hdigits, Nat.ofDigitChars_ten_toDigits]

/-! ## Distinct elements -/

section
variable {α : Type} [BEq α] [LawfulBEq α]

theorem distinct_filter (q : α → Bool) (l : List α) :
    (distinct l).filter q = distinct (l.filter q) := by
  induction l with
  | nil => rfl
  | cons a l ih =>
    rw [distinct, List.filter_cons, List.filter_cons]
    by_cases ha : q a
    · rw [if_pos ha, if_pos ha, distinct, ← ih, List.filter_filter, List.filter_filter]
      simp only [Bool.and_comm]
    · rw [if_neg ha, if_neg ha, ← ih, List.filter_filter]
      refine List.filter_congr fun b _ => ?_
      by_cases hb : b = a
      · subst hb
        simpa using ha
      · simp [hb]

theorem mem_distinct {a : α} {l : List α} : a ∈ distinct l ↔ a ∈ l := by
  induction l with
  | nil => rfl
  | cons b l ih =>
    rw [distinct, List.mem_cons, List.mem_filter, ih, List.mem_cons]
    by_cases h : a = b <;> simp [h]

theorem nodup_distinct (l : List α) : (distinct l).Nodup := by
  induction l with
  | nil => exact List.nodup_nil
  | cons a l ih =>
    refine List.nodup_cons.2 ⟨fun h => ?_, ih.sublist List.filter_sublist⟩
    simpa using (List.mem_filter.1 h).2

end

end Reasoning.Text
