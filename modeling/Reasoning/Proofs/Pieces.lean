/-
  Replacing in place.

  The occurrences of a text that are found from the left cut another text into pieces.  Each round
  of replacing is done with one piece: what is written so far grows by the piece and the new text,
  and what is still searched is a rest of the text as it was given.

  * `Text.Pieces`: the pieces, `Text.exists_pieces`: every text has them;
  * `Text.Pieces.cut`: every occurrence between them is the first one that is left, and there is
    none in the last piece;
  * `Text.Pieces.next?_eq`: one round, `Text.Pieces.after_eq`, `Text.Pieces.after_length`: all
    rounds, `Text.Pieces.replaceAll_eq`: what comes of them;
  * `Text.replaceAll_splits`: replacing joins the pieces by the new text, in as many rounds as
    there are occurrences, and searches nothing that was put in.
-/
import Mathlib.Data.List.Infix
import Reasoning.Text.Search

namespace Reasoning.Text

variable {old new t u p done : Text} {ps : List Text} {b : UInt8}

/-! ## Pieces -/

/-- The pieces of a text between the occurrences of `old`, read from the left without overlaps. -/
inductive Pieces (old : Text) : Text → List Text → Prop
  | nil : Pieces old [] [[]]
  | hit {t : Text} {ps : List Text} : Pieces old t ps → Pieces old (old ++ t) ([] :: ps)
  | miss {b : UInt8} {t p : Text} {ps : List Text} : ¬ old <+: b :: t → Pieces old t (p :: ps) →
      Pieces old (b :: t) ((b :: p) :: ps)

theorem Pieces.ne_nil (h : Pieces old t ps) : ps ≠ [] := by
  cases h <;> exact List.cons_ne_nil _ _

theorem exists_pieces (hne : old ≠ []) (t : Text) : ∃ p ps, Pieces old t (p :: ps) := by
  induction hlength : t.length using Nat.strong_induction_on generalizing t with
  | _ n ih =>
    cases t with
    | nil => exact ⟨_, _, .nil⟩
    | cons b t =>
      by_cases hhit : old <+: b :: t
      · obtain ⟨u, hu⟩ := hhit
        have hpos := List.length_pos_iff.2 hne
        have hlt : u.length < n := by
          rw [← hlength, ← hu, List.length_append]
          omega
        obtain ⟨p, ps, hps⟩ := ih _ hlt u rfl
        exact ⟨_, _, hu ▸ Pieces.hit hps⟩
      · obtain ⟨p, ps, hps⟩ := ih _ (by rw [← hlength]; exact Nat.lt_succ_self _) t rfl
        exact ⟨_, _, .miss hhit hps⟩

theorem join_nil_cons (s : Text) (hne : ps ≠ []) : join s ([] :: ps) = s ++ join s ps := by
  obtain ⟨p, ps, rfl⟩ := List.exists_cons_of_ne_nil hne
  rw [join_cons_cons, List.nil_append]

theorem join_cons_append (s p : Text) (b : UInt8) (ps : List Text) :
    join s ((b :: p) :: ps) = b :: join s (p :: ps) := by
  cases ps with
  | nil => rfl
  | cons q ps => rw [join_cons_cons, join_cons_cons, List.cons_append, List.cons_append]

theorem join_cons_of_ne_nil (s p : Text) (hne : ps ≠ []) :
    join s (p :: ps) = p ++ s ++ join s ps := by
  obtain ⟨q, ps, rfl⟩ := List.exists_cons_of_ne_nil hne
  exact join_cons_cons ..

theorem join_concat (s p : Text) (ps : List Text) :
    join s (ps ++ [p]) = (ps.flatMap fun q => q ++ s) ++ p := by
  induction ps with
  | nil => rfl
  | cons q ps ih =>
    rw [List.cons_append, join_cons_of_ne_nil s q (by simp), ih, List.flatMap_cons,
      List.append_assoc (q ++ s)]

/-- The last parts of a joined text are at its end. -/
theorem join_drop_suffix (s : Text) (n : Nat) (ps : List Text) :
    join s (ps.drop n) <:+ join s ps := by
  induction n generalizing ps with
  | zero => exact List.suffix_rfl
  | succ n ih =>
    cases ps with
    | nil => exact List.suffix_rfl
    | cons p ps =>
      refine (ih ps).trans ?_
      by_cases hps : ps = []
      · subst hps
        exact List.nil_suffix
      · rw [join_cons_of_ne_nil s p hps]
        exact List.suffix_append ..

namespace Pieces

/-- Nothing of the text is lost between its pieces. -/
theorem join_eq (h : Pieces old t ps) : join old ps = t := by
  induction h with
  | nil => rfl
  | hit hps ih => rw [join_nil_cons _ hps.ne_nil, ih]
  | miss _ _ ih => rw [join_cons_append, ih]

/-- There is more than one piece just when `old` occurs. -/
theorem infix_iff (h : Pieces old t ps) (hne : old ≠ []) : old <:+: t ↔ 1 < ps.length := by
  induction h with
  | nil => simpa using hne
  | hit hps _ =>
    have := List.length_pos_iff.2 hps.ne_nil
    exact iff_of_true (List.prefix_append ..).isInfix (by rw [List.length_cons]; omega)
  | miss hno _ ih =>
    rw [List.infix_cons_iff, or_iff_right hno, ih, List.length_cons, List.length_cons]

/-- Behind a piece comes the first occurrence that is left, and in the last piece there is none. -/
theorem cut (h : Pieces old t ps) (hne : old ≠ []) :
    ∃ qs last, ps = qs ++ [last] ∧
      (∀ q ∈ qs, ∀ u v, q ++ old = u ++ old ++ v → v = []) ∧ ¬ old <:+: last := by
  induction h with
  | nil => exact ⟨[], [], rfl, List.forall_mem_nil _, by simpa using hne⟩
  | hit _ ih =>
    obtain ⟨qs, last, rfl, hfirst, hlast⟩ := ih
    refine ⟨[] :: qs, last, rfl, List.forall_mem_cons.2 ⟨fun u v huv => ?_, hfirst⟩, hlast⟩
    have hlength := congrArg List.length huv
    simp only [List.length_append, List.length_nil] at hlength
    exact List.eq_nil_of_length_eq_zero (by omega)
  | @miss b t p ps hno hps ih =>
    obtain ⟨qs, last, heq, hfirst, hlast⟩ := ih
    cases qs with
    | nil =>
      cases heq
      obtain rfl : p = t := hps.join_eq
      refine ⟨[], b :: p, rfl, List.forall_mem_nil _, ?_⟩
      rw [List.infix_cons_iff, not_or]
      exact ⟨hno, hlast⟩
    | cons q qs =>
      obtain ⟨rfl, rfl⟩ := List.cons.inj heq
      obtain ⟨hp, hqs⟩ := List.forall_mem_cons.1 hfirst
      refine ⟨(b :: p) :: qs, last, rfl, List.forall_mem_cons.2 ⟨fun u v huv => ?_, hqs⟩, hlast⟩
      cases u with
      | nil =>
        -- An occurrence in front of the piece would have been a hit.
        refine absurd ?_ hno
        rw [← hps.join_eq, join_cons_of_ne_nil old p (by simp), ← List.cons_append,
          ← List.cons_append, huv, List.nil_append, List.append_assoc]
        exact List.prefix_append ..
      | cons c u =>
        rw [List.cons_append, List.cons_append, List.cons_append, List.cons.injEq] at huv
        exact hp u v huv.2

end Pieces

/-! ## Rounds -/

theorem find?_nil_left (hne : old ≠ []) : find? [] old = none := by
  rw [find?, if_neg (by simpa using hne)]

theorem find?_append_self (hne : old ≠ []) (t : Text) : find? (old ++ t) old = some 0 := by
  obtain ⟨b, w, rfl⟩ := List.exists_cons_of_ne_nil hne
  rw [List.cons_append, find?, if_pos]
  exact List.isPrefixOf_iff_prefix.2 (List.prefix_append (b :: w) t)

theorem find?_cons (hno : ¬ old <+: b :: t) : find? (b :: t) old = (find? t old).map (· + 1) := by
  rw [find?, if_neg fun hhit => hno (List.isPrefixOf_iff_prefix.1 hhit)]

namespace Replacing

variable {r s : Replacing} {hold : old ≠ []}

theorem run_of_next?_eq_none (h : r.next? old new = none) : r.run old new hold = r.text := by
  rw [run]
  split
  · rfl
  · rename_i hsome
    cases h.symm.trans hsome

theorem run_of_next?_eq_some (h : r.next? old new = some s) :
    r.run old new hold = s.run old new hold := by
  rw [run]
  split
  · rename_i hnone
    cases hnone.symm.trans h
  · rename_i hsome
    cases hsome.symm.trans h
    rfl

/-- What every round keeps of a text, replacing does. -/
theorem run_keeps {P : Text → Prop}
    (hnext : ∀ r s : Replacing, r.next? old new = some s → P r.text → P s.text) (h : P r.text) :
    P (r.run old new hold) := by
  induction r using run.induct old new hold with
  | case1 r hnone => rwa [run_of_next?_eq_none hnone]
  | case2 r s hsome _ ih =>
    rw [run_of_next?_eq_some hsome]
    exact ih (hnext r s hsome h)

/-- What some rounds come to; nothing if there are not that many. -/
def after (old new : Text) : Nat → Replacing → Option Replacing
  | 0, r => some r
  | n + 1, r => (r.next? old new).bind (after old new n)

end Replacing

namespace Pieces

/-- The first piece ends where `old` is found. -/
theorem find?_eq (h : Pieces old t (p :: ps)) (hne : old ≠ []) :
    (ps = [] ∧ t = p ∧ t.find? old = none) ∨
      ∃ u, Pieces old u ps ∧ t = p ++ old ++ u ∧ t.find? old = some p.length := by
  generalize hpieces : p :: ps = qs at h
  induction h generalizing p with
  | nil =>
    cases hpieces
    exact .inl ⟨rfl, rfl, find?_nil_left hne⟩
  | hit hps =>
    cases hpieces
    exact .inr ⟨_, hps, rfl, find?_append_self hne _⟩
  | miss hno _ ih =>
    cases hpieces
    rw [find?_cons hno]
    rcases ih rfl with ⟨rfl, rfl, hfind⟩ | ⟨u, hu, rfl, hfind⟩
    · exact .inl ⟨rfl, rfl, by rw [hfind, Option.map_none]⟩
    · exact .inr ⟨u, hu, rfl, by rw [hfind, Option.map_some, List.length_cons]⟩

/-- **One round.**  The first piece and the new text come to what is done, and what is behind the
    piece is still to be searched.  The last piece is the end. -/
theorem next?_eq (h : Pieces old t (p :: ps)) (hne : old ≠ []) (new done : Text) :
    (ps = [] ∧ t = p ∧ Replacing.next? old new ⟨done ++ t, done.length⟩ = none) ∨
      ∃ u, Pieces old u ps ∧ Replacing.next? old new ⟨done ++ t, done.length⟩ =
        some ⟨done ++ (p ++ new) ++ u, (done ++ (p ++ new)).length⟩ := by
  unfold Replacing.next? findFrom?
  rw [List.drop_left]
  rcases h.find?_eq hne with ⟨hps, ht, hfind⟩ | ⟨u, hu, rfl, hfind⟩
  · exact .inl ⟨hps, ht, by rw [hfind]; rfl⟩
  · refine .inr ⟨u, hu, ?_⟩
    have hsplit : done ++ (p ++ old ++ u) = done ++ p ++ (old ++ u) := by
      simp only [List.append_assoc]
    have hlength : done.length + p.length = (done ++ p).length := List.length_append.symm
    rw [hfind, Option.map_some, Option.map_some, hsplit, hlength, List.take_left, ← List.drop_drop,
      List.drop_left, List.drop_left, ← List.append_assoc done]
    exact congrArg some (congrArg _ List.length_append.symm)

theorem after_eq (h : Pieces old t ps) (hne : old ≠ []) (new done : Text) {n : Nat}
    (hn : n < ps.length) :
    Replacing.after old new n ⟨done ++ t, done.length⟩ =
      some ⟨done ++ (ps.take n).flatMap (· ++ new) ++ join old (ps.drop n),
        (done ++ (ps.take n).flatMap (· ++ new)).length⟩ := by
  induction n generalizing t ps done with
  | zero => simp [Replacing.after, h.join_eq]
  | succ n ih =>
    obtain ⟨p, ps, rfl⟩ := List.exists_cons_of_ne_nil h.ne_nil
    rcases h.next?_eq hne new done with ⟨rfl, -⟩ | ⟨u, hu, hnext⟩
    · exact absurd hn (by simp)
    · rw [Replacing.after, hnext, Option.bind_some, ih hu _ (Nat.lt_of_succ_lt_succ hn),
        List.take_succ_cons, List.drop_succ_cons, List.flatMap_cons,
        List.append_assoc done (p ++ new)]

/-- There are no more rounds than occurrences. -/
theorem after_length (h : Pieces old t ps) (hne : old ≠ []) (new done : Text) :
    Replacing.after old new ps.length ⟨done ++ t, done.length⟩ = none := by
  induction ps generalizing t done with
  | nil => exact absurd rfl h.ne_nil
  | cons p ps ih =>
    rw [List.length_cons, Replacing.after]
    rcases h.next?_eq hne new done with ⟨-, -, hnext⟩ | ⟨u, hu, hnext⟩
    · rw [hnext, Option.bind_none]
    · rw [hnext, Option.bind_some, ih hu]

theorem run_eq (h : Pieces old t ps) (hne : old ≠ []) (new done : Text) :
    Replacing.run old new hne ⟨done ++ t, done.length⟩ = done ++ join new ps := by
  induction ps generalizing t done with
  | nil => exact absurd rfl h.ne_nil
  | cons p ps ih =>
    rcases h.next?_eq hne new done with ⟨rfl, rfl, hnext⟩ | ⟨u, hu, hnext⟩
    · rw [Replacing.run_of_next?_eq_none hnext, join_singleton]
    · rw [Replacing.run_of_next?_eq_some hnext, ih hu, join_cons_of_ne_nil _ _ hu.ne_nil,
        List.append_assoc]

/-- Replacing puts the new text between the pieces. -/
theorem replaceAll_eq (h : Pieces old t ps) (hne : old ≠ []) (new : Text) :
    replaceAll t old new = join new ps := by
  rw [replaceAll, dif_neg hne]
  exact h.run_eq hne new []

end Pieces

/-- What does not occur is not replaced. -/
theorem replaceAll_of_not_infix (new : Text) (h : ¬ old <:+: t) : replaceAll t old new = t := by
  have hne : old ≠ [] := fun hnil => h (hnil ▸ List.nil_infix)
  obtain ⟨p, ps, hps⟩ := exists_pieces hne t
  have hone : ps = [] := by
    have := mt (hps.infix_iff hne).2 h
    rw [List.length_cons] at this
    exact List.eq_nil_of_length_eq_zero (by omega)
  subst hone
  rw [hps.replaceAll_eq hne]
  exact hps.join_eq

/-- **Replacing splits and joins.**  A text falls into pieces between the occurrences of `old`, of
    which each is the first one that is left, and replacing joins the pieces by `new`.  It takes one
    round for each occurrence, whatever `new` is.  After some rounds `new` stands behind as many
    pieces, and what is searched from there on is the rest of the given text. -/
theorem replaceAll_splits (hold : old ≠ []) (t new : Text) :
    ∃ qs last, join old (qs ++ [last]) = t ∧
      (∀ q ∈ qs, ∀ u v, q ++ old = u ++ old ++ v → v = []) ∧ ¬ old <:+: last ∧
      replaceAll t old new = join new (qs ++ [last]) ∧
      (∀ n ≤ qs.length,
        let written := (qs.take n).flatMap (· ++ new)
        let left := join old (qs.drop n ++ [last])
        Replacing.after old new n ⟨t, 0⟩ = some ⟨written ++ left, written.length⟩ ∧ left <:+ t) ∧
      (Replacing.after old new qs.length ⟨t, 0⟩).map (·.text) = some (replaceAll t old new) ∧
      Replacing.after old new (qs.length + 1) ⟨t, 0⟩ = none := by
  obtain ⟨p, ps, hpieces⟩ := exists_pieces hold t
  obtain ⟨qs, last, hcut, hfirst, hlast⟩ := hpieces.cut hold
  rw [hcut] at hpieces
  have hafter : ∀ n ≤ qs.length, Replacing.after old new n ⟨t, 0⟩ =
      some ⟨(qs.take n).flatMap (· ++ new) ++ join old (qs.drop n ++ [last]),
        ((qs.take n).flatMap (· ++ new)).length⟩ := by
    intro n hn
    have h := hpieces.after_eq hold new [] (n := n) (by simp; omega)
    rwa [List.take_append_of_le_length hn, List.drop_append_of_le_length hn] at h
  have hjoin := hpieces.replaceAll_eq hold new
  refine ⟨qs, last, hpieces.join_eq, hfirst, hlast, hjoin, fun n hn => ⟨hafter n hn, ?_⟩, ?_, ?_⟩
  · have h := join_drop_suffix old n (qs ++ [last])
    rwa [List.drop_append_of_le_length hn, hpieces.join_eq] at h
  · rw [hafter _ (Nat.le_refl _), hjoin, join_concat new, List.take_length, List.drop_length]
    rfl
  · have h := hpieces.after_length hold new []
    rwa [List.length_append] at h

/-- The occurrences that are put in are not replaced again. -/
theorem replaceAll_splits_hyphens :
    let t : Text := "a-b--c"
    let old : Text := "-"
    let new : Text := "--"
    old ≠ [] ∧ replaceAll t old new = "a--b----c" ∧
      ∃ qs last, join old (qs ++ [last]) = t ∧ join new (qs ++ [last]) = "a--b----c" ∧
        ¬ old <:+: last ∧ Replacing.after old new (qs.length + 1) ⟨t, 0⟩ = none := by
  intro t old new
  have hold : old ≠ [] := by decide
  have hresult : replaceAll t old new = "a--b----c" := by decide +kernel
  obtain ⟨qs, last, hsplit, -, hlast, hjoin, -, -, hend⟩ := replaceAll_splits hold t new
  exact ⟨hold, hresult, qs, last, hsplit, hjoin ▸ hresult, hlast, hend⟩

end Reasoning.Text
