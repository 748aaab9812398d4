/-
  How an expression goes through a text that falls into known pieces.

  * `Regex.run_ofList`, `Regex.run_oneOf`: expressions one after the other, and the first of them;
  * `Regex.exists_of_run`: what an expression goes over is a piece of the text;
  * `Regex.run_word`: a word is gone over where its letters stand, and fails elsewhere;
  * `Regex.run_space_cons`, `Regex.run_space_eq_none`: a single space, and none;
  * `Regex.run_word_space`: a word in front of a space stands for the whole piece up to there;
  * `Regex.run_group_append`, `Regex.run_group_few`: groups that take as much, and as little, as
    possible;
  * `Regex.search_eq`, `Regex.allFrom_hit`, `Regex.allFrom_miss`: matches in front of the rest of a
    text, and texts without any.
-/
import Reasoning.Proofs.Regex
import Reasoning.Proofs.Search

namespace Reasoning.Regex

open Text (lower getLast?_cons_or)

variable {α : Type} {p : UInt8 → Bool} {e : Regex} {k : Place → Captures → Option α} {c : Captures}
  {previous : Option UInt8} {s t w x : Text} {b : UInt8}

/-! ## Lists of expressions -/

theorem run_ofList_nil (k : Place → Captures → Option α) : run (ofList []) k = k := by
  funext x c
  rcases x with ⟨previous, t⟩
  cases t <;> rfl

theorem run_ofList (e : Regex) (es : List Regex) (k : Place → Captures → Option α) :
    run (ofList (e :: es)) k = run e (run (ofList es) k) := by
  cases es with
  | nil =>
    rw [run_ofList_nil]
    rfl
  | cons f es => exact run_ofList_cons e f es k

/-- The first of several that leads to a match is taken. -/
theorem run_oneOf {x : Place} {a : α} (es : List Regex) (h : run e k x c = some a) :
    run (oneOf (e :: es)) k x c = some a := by
  cases es with
  | nil => exact h
  | cons f es =>
    rw [oneOf, run, h]
    · rfl
    · exact List.cons_ne_nil f es

/-- An expression goes over a piece of the text. -/
theorem exists_of_run {x : Place} {a : α} (h : run e k x c = some a) :
    ∃ s y d, x.rest = s ++ y.rest ∧ k y d = some a := by
  have hplain {e : Regex} (he : e.Over fun _ => True) {k : Place → Captures → Option α}
      {x : Place} {c : Captures} (h : run e k x c = some a) :
      ∃ s y d, x.rest = s ++ y.rest ∧ k y d = some a := by
    obtain ⟨s, y, hs, -, h⟩ := run_over he h
    exact ⟨s, y, c, hs, h⟩
  induction e generalizing x k c with
  | byte q => exact hplain (e := byte q) (fun _ _ => trivial) h
  | boundary => exact hplain (e := boundary) trivial h
  | many q => exact hplain (e := many q) (fun _ _ => trivial) h
  | few q => exact hplain (e := few q) (fun _ _ => trivial) h
  | seq e f ihe ihf =>
    obtain ⟨s, y, d, hs, h⟩ := ihe h
    obtain ⟨t, z, d, ht, h⟩ := ihf h
    exact ⟨s ++ t, z, d, by rw [hs, ht, List.append_assoc], h⟩
  | alt e f ihe ihf => exact (or_of_orElse h).elim ihe ihf
  | opt e ih => exact (or_of_orElse h).elim ih fun h => ⟨[], x, c, rfl, h⟩
  | group n e ih =>
    obtain ⟨s, y, d, hs, h⟩ := ih h
    exact ⟨s, y, _, hs, h⟩

/-! ## Words and spaces -/

/-- A word is gone over if the text goes on with its letters, in whatever case. -/
theorem run_word (w : Text) (k : Place → Captures → Option α) (previous : Option UInt8) (t : Text)
    (c : Captures) :
    run (word w) k ⟨previous, t⟩ c =
      if lower (t.take w.length) = lower w then
        k ⟨(t.take w.length).getLast?.or previous, t.drop w.length⟩ c
      else none := by
  induction w generalizing previous t with
  | nil => cases t <;> rfl
  | cons a w ih =>
    have hcons : run (word (a :: w)) k =
        run (byte fun c => Byte.lower c == Byte.lower a) (run (word w) k) := by
      rw [word, List.map_cons, run_ofList]
      rfl
    rw [hcons]
    cases t with
    | nil => rfl
    | cons b t =>
      rw [run]
      simp only [List.length_cons, List.take_succ_cons, List.drop_succ_cons, getLast?_cons_or]
      rw [ih]
      simp only [lower, List.map_cons, List.cons.injEq, beq_iff_eq]
      split_ifs <;> simp_all

theorem run_word_append (h : lower s = lower w) :
    run (word w) k ⟨previous, s ++ t⟩ c = k ⟨s.getLast?.or previous, t⟩ c := by
  have hlength : w.length = s.length := by simpa [lower] using (congrArg List.length h).symm
  rw [run_word, hlength, List.take_left, List.drop_left, if_pos h]

/-- Nothing is gone over by a space in front of something else. -/
theorem run_space_eq_none (ht : ∀ b ∈ t.head?, Byte.isSpace b = false) :
    run space k ⟨previous, t⟩ c = none := by
  cases t with
  | nil => rfl
  | cons b t =>
    have hb := ht b rfl
    simp [space, atLeastOne, run, hb]

/-- A single space is gone over. -/
theorem run_space_cons (hb : Byte.isSpace b) (ht : ∀ b ∈ t.head?, Byte.isSpace b = false) :
    run space k ⟨previous, b :: t⟩ c = k ⟨some b, t⟩ c := by
  cases t with
  | nil => simp [space, atLeastOne, run, hb, runMany]
  | cons d t =>
    have hd := ht d rfl
    simp [space, atLeastOne, run, hb, runMany, hd]

/-- A word in front of a space stands for the whole piece up to there. -/
theorem run_word_space (hw : ∀ b ∈ w, Byte.isSpace b = false)
    (hx : ∀ b ∈ x, Byte.isSpace b = false) (hb : Byte.isSpace b) :
    run (word w) (run space k) ⟨previous, x ++ b :: t⟩ c =
      if lower x = lower w then run space k ⟨x.getLast?.or previous, b :: t⟩ c else none := by
  have hlength (h : lower x = lower w) : x.length = w.length := by
    simpa [lower] using congrArg List.length h
  rw [run_word]
  rcases Nat.lt_trichotomy w.length x.length with hlt | heq | hgt
  · -- The piece goes on behind the word, so there is no space.
    have hrest : ∀ d ∈ (List.drop w.length (x ++ b :: t)).head?, Byte.isSpace d = false := by
      rw [List.drop_append_of_le_length hlt.le, List.head?_append_of_ne_nil]
      · exact fun d hd => hx d (List.mem_of_mem_drop (List.mem_of_mem_head? hd))
      · simpa using hlt
    rw [run_space_eq_none hrest, ite_self, if_neg fun h => hlt.ne' (hlength h)]
  · rw [heq, List.take_left, List.drop_left]
  · -- The space would belong to the word.
    rw [if_neg, if_neg fun h => hgt.ne (hlength h)]
    intro h
    have hmem : Byte.lower b ∈ lower (List.take w.length (x ++ b :: t)) := by
      refine List.mem_map_of_mem ?_
      rw [List.take_append, List.take_of_length_le hgt.le, List.mem_append]
      obtain ⟨n, hn⟩ := Nat.exists_eq_add_of_lt hgt
      rw [hn, Nat.add_assoc, Nat.add_sub_cancel_left]
      exact .inr (List.mem_cons_self ..)
    rw [h] at hmem
    obtain ⟨d, hd, he⟩ := List.mem_map.1 hmem
    have hspace := hw d hd
    rw [← Text.isSpace_lower, he, Text.isSpace_lower, hb] at hspace
    cases hspace

/-! ## Pieces as long and as short as possible -/

/-- Bytes of a class are taken up to one that is not of it, if this leads to a match. -/
theorem runMany_append {k : Place → Option α} (hs : ∀ b ∈ s, p b = true)
    (ht : ∀ b ∈ t.head?, p b = false) (hk : (k ⟨s.getLast?.or previous, t⟩).isSome) :
    runMany p k previous (s ++ t) = k ⟨s.getLast?.or previous, t⟩ := by
  induction s generalizing previous with
  | nil =>
    cases t with
    | nil => rfl
    | cons b t => simp [runMany, ht b rfl]
  | cons b s ih =>
    rw [getLast?_cons_or] at hk ⊢
    obtain ⟨hb, hs⟩ := List.forall_mem_cons.1 hs
    obtain ⟨a, ha⟩ := Option.isSome_iff_exists.1 hk
    rw [List.cons_append, runMany, if_pos hb, ih hs hk, ha]
    rfl

/-- Bytes of a class are passed while nothing else leads to a match. -/
theorem runFew_append {k : Place → Option α} {a : α} (hs : ∀ b ∈ s, p b = true)
    (hfail : ∀ u v, s = u ++ v → v ≠ [] → k ⟨u.getLast?.or previous, v ++ t⟩ = none)
    (hk : k ⟨s.getLast?.or previous, t⟩ = some a) : runFew p k previous (s ++ t) = some a := by
  induction s generalizing previous with
  | nil => cases t <;> simp_all [runFew]
  | cons b s ih =>
    obtain ⟨hb, hs⟩ := List.forall_mem_cons.1 hs
    have hhere : k ⟨previous, b :: (s ++ t)⟩ = none := hfail [] (b :: s) rfl (List.cons_ne_nil b s)
    rw [getLast?_cons_or] at hk
    rw [List.cons_append, runFew, hhere, if_pos hb, ih hs (fun u v hsplit hv => ?_) hk]
    · rfl
    · rw [← getLast?_cons_or b u previous]
      exact hfail (b :: u) v (by rw [hsplit]; rfl) hv

/-! ## Groups -/

/-- A group takes a whole piece as long as possible. -/
theorem run_group_append {n : Nat} (hne : s ≠ []) (hs : ∀ b ∈ s, p b = true)
    (ht : ∀ b ∈ t.head?, p b = false)
    (hk : (k ⟨s.getLast?.or previous, t⟩ ((n, s) :: c)).isSome) :
    run (group n (atLeastOne p)) k ⟨previous, s ++ t⟩ c =
      k ⟨s.getLast?.or previous, t⟩ ((n, s) :: c) := by
  obtain ⟨b, s, rfl⟩ := List.exists_cons_of_ne_nil hne
  obtain ⟨hb, hs⟩ := List.forall_mem_cons.1 hs
  rw [run, atLeastOne, run, run, List.cons_append]
  dsimp only
  rw [if_pos hb, run, ← List.cons_append]
  dsimp only
  rw [getLast?_cons_or] at hk ⊢
  rw [runMany_append hs ht]
  · dsimp only
    rw [take_length_sub]
  · dsimp only
    rwa [take_length_sub]

/-- A group takes a whole piece as short as possible if none of its beginnings leads to a match. -/
theorem run_group_few {n : Nat} {a : α} (hne : s ≠ []) (hs : ∀ b ∈ s, p b = true)
    (hfail : ∀ u v, s = u ++ v → u ≠ [] → v ≠ [] →
      k ⟨u.getLast?.or previous, v ++ t⟩ ((n, u) :: c) = none)
    (hk : k ⟨s.getLast?.or previous, t⟩ ((n, s) :: c) = some a) :
    run (group n (seq (byte p) (few p))) k ⟨previous, s ++ t⟩ c = some a := by
  obtain ⟨b, s, rfl⟩ := List.exists_cons_of_ne_nil hne
  obtain ⟨hb, hs⟩ := List.forall_mem_cons.1 hs
  rw [run, run, run, List.cons_append]
  dsimp only
  rw [if_pos hb, run, ← List.cons_append]
  dsimp only
  refine runFew_append hs (fun u v hsplit hv => ?_) ?_
  · have hsplit' : b :: s ++ t = b :: u ++ (v ++ t) := by rw [hsplit]; simp
    dsimp only
    rw [hsplit', take_length_sub, ← getLast?_cons_or b u previous]
    exact hfail (b :: u) v (by rw [hsplit]; rfl) (List.cons_ne_nil b u) hv
  · dsimp only
    rwa [take_length_sub, ← getLast?_cons_or b s previous]

/-! ## Matches -/

theorem search_eq {m : Match} (h : e.matchAt ⟨none, t⟩ = some m) (hne : t ≠ []) :
    e.search t = some m := by
  obtain ⟨b, t, rfl⟩ := List.exists_cons_of_ne_nil hne
  rw [search, searchFrom, h]
  rfl

theorem allFrom_skip (e : Regex) (previous : Option UInt8) (n : Nat) (t : Text) :
    allFrom e previous n t = allFrom e ((t.take n).getLast?.or previous) 0 (t.drop n) := by
  induction t generalizing previous n with
  | nil => cases n <;> rfl
  | cons b t ih =>
    cases n with
    | zero => rfl
    | succ n => rw [allFrom, ih, List.take_succ_cons, List.drop_succ_cons, getLast?_cons_or]

/-- Where there is no match, the text is passed over. -/
theorem allFrom_miss (h : ∀ u v, s = u ++ v → v ≠ [] →
    e.matchAt ⟨u.getLast?.or previous, v ++ t⟩ = none) :
    allFrom e previous 0 (s ++ t) = allFrom e (s.getLast?.or previous) 0 t := by
  induction s generalizing previous with
  | nil => rfl
  | cons b s ih =>
    have hhere : e.matchAt ⟨previous, b :: (s ++ t)⟩ = none :=
      h [] (b :: s) rfl (List.cons_ne_nil b s)
    rw [List.cons_append, allFrom, hhere, getLast?_cons_or]
    refine ih fun u v hsplit hv => ?_
    rw [← getLast?_cons_or b u previous]
    exact h (b :: u) v (by rw [hsplit]; rfl) hv

/-- Behind a match the text is looked at anew. -/
theorem allFrom_hit {m : Match} (hm : e.matchAt ⟨previous, s ++ t⟩ = some m)
    (hlength : m.length = s.length) (hne : s ≠ []) :
    allFrom e previous 0 (s ++ t) = m :: allFrom e (s.getLast?.or previous) 0 t := by
  obtain ⟨b, s, rfl⟩ := List.exists_cons_of_ne_nil hne
  rw [List.cons_append] at hm ⊢
  rw [allFrom, hm]
  dsimp only
  rw [hlength, List.length_cons, Nat.add_sub_cancel, allFrom_skip, List.take_left, List.drop_left,
    getLast?_cons_or]

end Reasoning.Regex
