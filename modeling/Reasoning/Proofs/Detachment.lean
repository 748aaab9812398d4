/-
  Words that are replaced where they stand on their own.

  If no word of a table is part of a longer word of a text, what is put in for a word has no word
  byte next to it.  A word of the table that is found there later is then found within a single
  thing that was put in.  If none is part of what is put in for another, all words are replaced one
  after the other as if at once, in whatever order.

  * `Text.Detached`: words that stand on their own wherever they occur in a text;
  * `Text.Detached.of_words`: so it is if none is part of a longer word of the text;
  * `Text.Marked.Framed`: what is put in has no word byte that is kept next to it;
  * `Text.Marked.Framed.infix_of_put`: a word that meets something put in is part of it;
  * `Text.Detached.foldl_replaceAll`: one after the other is at once, in whatever order.
-/
import Mathlib.Data.List.DropRight
import Reasoning.Proofs.Occurrence
import Reasoning.Proofs.Substitution

namespace Reasoning.Text

variable {names names' : Dict Text} {n : Text × Text} {t w : Text} {b : UInt8} {p : Nat}

/-! ## Words on their own -/

/-- The entries have different words, and wherever one occurs in the text it stands on its own. -/
structure Detached (names : Dict Text) (t : Text) : Prop where
  word : ∀ n ∈ names, n.1.IsWord
  stands : ∀ n ∈ names, ∀ p, n.1 <+: t.drop p → n.1.StandsAt t p
  keys : names.keys.Nodup

theorem StandsAt.not_isWord_before (h : w.StandsAt t p) (hp : p ≠ 0) (hb : t[p - 1]? = some b) :
    ¬ Byte.isWord b := by
  obtain ⟨before, behind, rfl, rfl, hbefore, -⟩ := h
  refine hbefore b ?_
  rw [List.append_assoc, List.getElem?_append_left (by omega)] at hb
  rwa [Option.mem_def, List.getLast?_eq_getElem?]

theorem StandsAt.not_isWord_behind (h : w.StandsAt t p) (hb : t[p + w.length]? = some b) :
    ¬ Byte.isWord b := by
  obtain ⟨before, behind, rfl, rfl, -, hbehind⟩ := h
  refine hbehind b ?_
  rw [← List.length_append, List.getElem?_append_right (Nat.le_refl _), Nat.sub_self] at hb
  rwa [Option.mem_def, List.head?_eq_getElem?]

/-- In front of a place there are word bytes, maybe none, up to a byte that is none. -/
theorem exists_run_before (t : Text) : ∃ u run : Text, t = u ++ run ∧
    (∀ b ∈ run, Byte.isWord b) ∧ ∀ b ∈ u.getLast?, ¬ Byte.isWord b := by
  refine ⟨t.rdropWhile Byte.isWord, t.rtakeWhile Byte.isWord,
    List.rdropWhile_append_rtakeWhile.symm, fun b => List.mem_rtakeWhile_imp, fun b hb => ?_⟩
  obtain ⟨hne, rfl⟩ := List.mem_getLast?_eq_getLast hb
  exact List.rdropWhile_last_not _ t hne

/-- Behind a place, too. -/
theorem exists_run_behind (t : Text) : ∃ run u : Text, t = run ++ u ∧
    (∀ b ∈ run, Byte.isWord b) ∧ ∀ b ∈ u.head?, ¬ Byte.isWord b := by
  refine ⟨t.takeWhile Byte.isWord, t.dropWhile Byte.isWord,
    (List.takeWhile_append_dropWhile ..).symm, fun b => List.mem_takeWhile_imp, fun b hb => ?_⟩
  have := List.head?_dropWhile_not Byte.isWord t
  rw [Option.mem_def.1 hb] at this
  simpa using this

/-- A word that is part of no longer word of the text stands on its own. -/
theorem standsAt_of_words (hw : w.IsWord) (h : ∀ v ∈ t.tokens, w <:+: v → w = v)
    (hp : w <+: t.drop p) : w.StandsAt t p := by
  obtain ⟨behind, hbehind⟩ := hp
  have hlt : p < t.length := by
    have hpos := List.length_pos_iff.2 hw.ne_nil
    have := congrArg List.length hbehind
    rw [List.length_append, List.length_drop] at this
    omega
  obtain ⟨u, run, hbefore, hrun, hu⟩ := exists_run_before (t.take p)
  obtain ⟨run', v, rfl, hrun', hv⟩ := exists_run_behind behind
  have ht : t = u ++ (run ++ w ++ run') ++ v := by
    rw [← List.take_append_drop p t, ← hbehind, hbefore]
    simp only [List.append_assoc]
  -- What stands around it belongs to a word of the text.
  have hlongest : run ++ w ++ run' ∈ t.tokens := by
    refine mem_tokens_iff.2 ⟨⟨by simp [hw.ne_nil], fun b hb => ?_⟩, u, v, ht, hu, hv⟩
    rcases List.mem_append.1 hb with hb | hb
    · exact (List.mem_append.1 hb).elim (hrun b) (hw.word b)
    · exact hrun' b hb
  have hlength := congrArg List.length (h _ hlongest ⟨run, run', rfl⟩)
  rw [List.length_append, List.length_append] at hlength
  obtain rfl : run = [] := List.length_eq_zero_iff.1 (by omega)
  obtain rfl : run' = [] := List.length_eq_zero_iff.1 (by omega)
  rw [List.append_nil] at hbefore
  refine ⟨u, v, by simpa using ht, ?_, hu, hv⟩
  rw [← hbefore, List.length_take_of_le hlt.le]

theorem Detached.of_words (hword : ∀ n ∈ names, n.1.IsWord) (hkeys : names.keys.Nodup)
    (h : ∀ n ∈ names, ∀ v ∈ t.tokens, n.1 <:+: v → n.1 = v) : Detached names t where
  word := hword
  stands n hn _ hp := standsAt_of_words (hword n hn) (h n hn) hp
  keys := hkeys

namespace Detached

theorem mono (h : Detached names t) (hsub : names'.Sublist names) : Detached names' t where
  word n hn := h.word n (hsub.subset hn)
  stands n hn := h.stands n (hsub.subset hn)
  keys := h.keys.sublist (hsub.map _)

theorem perm (h : Detached names t) (hperm : names'.Perm names) : Detached names' t where
  word n hn := h.word n (hperm.subset hn)
  stands n hn := h.stands n (hperm.subset hn)
  keys := (hperm.map _).nodup_iff.2 h.keys

/-- Only one word stands at a place: the byte behind it is none of a longer word. -/
theorem length_le_of_hits {m : Text × Text} (h : Detached names t) (hn : n ∈ names)
    (hm : m ∈ names) (hnt : n.1 <+: t.drop p) (hmt : m.1 <+: t.drop p) :
    m.1.length ≤ n.1.length := by
  by_contra hlt
  have hbyte := List.prefix_iff_getElem?.1 hmt n.1.length (by omega)
  rw [List.getElem?_drop] at hbyte
  exact (h.stands n hn p hnt).not_isWord_behind hbyte ((h.word m hm).word _ (List.getElem_mem _))

/-- No two words overlap: the byte in front of the second is none of the first. -/
theorem separate (h : Detached names t) : Separate names t := by
  intro q _ p hpq n hn m hm
  rw [mem_standing] at hn hm
  rcases Nat.eq_or_lt_of_le hpq with rfl | hlt
  · have hlength := Nat.le_antisymm (h.length_le_of_hits hm.1 hn.1 hm.2 hn.2)
      (h.length_le_of_hits hn.1 hm.1 hn.2 hm.2)
    have hkey : n.1 = m.1 :=
      (List.prefix_of_prefix_length_le hn.2 hm.2 hlength.le).eq_of_length hlength
    exact .inl ⟨rfl, List.inj_on_of_nodup_map h.keys hn.1 hm.1 hkey⟩
  · refine .inr (Nat.le_of_not_lt fun hreach => ?_)
    have hbyte := List.prefix_iff_getElem?.1 hn.2 (q - 1 - p) (by omega)
    rw [List.getElem?_drop, Nat.add_sub_cancel' (by omega)] at hbyte
    exact (h.stands m hm.1 q hm.2).not_isWord_before (by omega) hbyte
      ((h.word n hn.1).word _ (List.getElem_mem _))

end Detached

/-! ## What is put in -/

namespace Marked

/-- The text falls into bytes that are kept and what is put in for entries, and no word byte that is
    kept is next to what is put in.  Two things that are put in are not next to each other. -/
inductive Framed (names : Dict Text) : Marked → Prop
  | nil : Framed names []
  | put {n m} : n ∈ names → (∀ x ∈ m.head?, x.2 = false ∧ ¬ Byte.isWord x.1) → Framed names m →
      Framed names (Marked.put n.2 ++ m)
  | kept {b m} : (Byte.isWord b → ∀ x ∈ m.head?, x.2 = false) → Framed names m →
      Framed names ((b, false) :: m)

variable {m x z : Marked}

/-- A run of word bytes that begins with one that is kept is kept. -/
theorem Framed.kept_of_head (h : Framed names (x ++ z)) (hword : ∀ y ∈ x, Byte.isWord y.1)
    (hhead : ∀ y ∈ x.head?, y.2 = false) : ∀ y ∈ x, y.2 = false := by
  generalize hm : x ++ z = m at h
  induction h generalizing x with
  | nil =>
    obtain ⟨rfl, -⟩ := List.append_eq_nil_iff.1 hm
    exact List.forall_mem_nil _
  | @put n m _ _ _ ih =>
    cases x with
    | nil => exact List.forall_mem_nil _
    | cons y x =>
      cases hn : n.2 with
      | nil =>
        rw [hn] at hm
        exact ih hword hhead hm
      | cons b u =>
        rw [hn] at hm
        have hcons : y :: (x ++ z) = (b, true) :: (Marked.put u ++ m) := hm
        cases (List.cons.inj hcons).1.symm.trans rfl
        cases hhead (b, true) rfl
  | @kept b m hnext _ ih =>
    cases x with
    | nil => exact List.forall_mem_nil _
    | cons y x =>
      have hcons : y :: (x ++ z) = (b, false) :: m := hm
      obtain ⟨rfl, rfl⟩ := List.cons.inj hcons
      rw [List.forall_mem_cons] at hword
      refine List.forall_mem_cons.2 ⟨rfl, ih hword.2 (fun y hy => hnext hword.1 y ?_) rfl⟩
      rw [List.head?_append, Option.mem_def.1 hy]
      rfl

/-- A run of word bytes that meets something put in is part of it. -/
theorem Framed.infix_of_put {a : Marked} (h : Framed names (a ++ x ++ z))
    (hword : ∀ y ∈ x, Byte.isWord y.1) (hput : ∃ y ∈ x, y.2 = true) :
    ∃ n ∈ names, x.bytes <:+: n.2 := by
  generalize hm : a ++ x ++ z = m at h
  induction h generalizing a with
  | nil =>
    obtain ⟨y, hy, -⟩ := hput
    obtain ⟨hax, -⟩ := List.append_eq_nil_iff.1 hm
    obtain ⟨-, rfl⟩ := List.append_eq_nil_iff.1 hax
    cases hy
  | @put n m hn hnext _ ih =>
    -- What lies within the thing that is put in is part of it.
    have hwithin (c d : Marked) (hc : Marked.put n.2 = c ++ x ++ d) :
        ∃ n ∈ names, x.bytes <:+: n.2 := by
      refine ⟨n, hn, c.bytes, d.bytes, ?_⟩
      rw [← bytes_append, ← bytes_append, ← hc, bytes_put]
    rw [List.append_assoc] at hm
    rcases List.append_eq_append_iff.1 hm with ⟨c, hc, hxz⟩ | ⟨c, rfl, hrest⟩
    · rcases List.append_eq_append_iff.1 hxz with ⟨d, rfl, -⟩ | ⟨d, rfl, hd⟩
      · exact hwithin a d (by rw [hc, List.append_assoc])
      · cases d with
        | nil => exact hwithin a [] (by rw [hc, List.append_nil, List.append_nil])
        | cons y d =>
          rw [hd] at hnext
          exact absurd (hword y (by simp)) (hnext y rfl).2
    · exact ih (by rw [hrest, List.append_assoc])
  | @kept b m hnext hrest ih =>
    cases a with
    | nil =>
      -- A run that begins with a kept byte is kept.
      obtain ⟨y, hy, hmark⟩ := hput
      cases x with
      | nil => cases hy
      | cons y' x =>
        have hframed : Framed names ((b, false) :: m) := .kept hnext hrest
        cases hm
        have hkept := Framed.kept_of_head (x := (b, false) :: x) (z := z) hframed hword
          (fun y hy => by cases hy; rfl) y hy
        rw [hkept] at hmark
        cases hmark
    | cons y a =>
      cases hm
      exact ih rfl

end Marked

namespace Detached

theorem drop (h : Detached names t) (k : Nat) : Detached names (t.drop k) where
  word := h.word
  keys := h.keys
  stands n hn p hp := by
    rw [List.drop_drop] at hp
    obtain ⟨before, behind, ht, hlength, hbefore, hbehind⟩ := h.stands n hn (k + p) hp
    have hk : k ≤ before.length := by omega
    refine ⟨before.drop k, behind, ?_, by rw [List.length_drop]; omega, fun b hb => ?_, hbehind⟩
    · rw [ht, List.append_assoc, List.drop_append_of_le_length hk, List.append_assoc]
    · rw [List.getLast?_drop] at hb
      split at hb
      · cases hb
      · exact hbefore b hb

/-- What is put in for detached words is framed. -/
theorem framed (h : Detached names t) : (substitute names t).Framed names := by
  have hne : ∀ n ∈ names, n.1 ≠ [] := fun n hn => (h.word n hn).ne_nil
  -- A text begins with a word, or with a byte that is kept.
  have hhead (u : Text) (x) (hx : x ∈ (substitute names u).head?) :
      (∃ n ∈ names, n.1 <+: u) ∨ x.2 = false ∧ u.head? = some x.1 := by
    cases u with
    | nil => cases hx
    | cons b u =>
      refine or_iff_not_imp_left.2 fun hno => ?_
      rw [substitute_cons fun n hn hnt => hno ⟨n, hn, hnt⟩] at hx
      cases hx
      exact ⟨rfl, rfl⟩
  induction t using hits_induction hne with
  | nil => exact .nil
  | hit t n hn hnt ih =>
    rw [substitute_hit h.separate hn (hne n hn) hnt]
    refine .put hn (fun x hx => ?_) (ih (h.drop _))
    have hbehind {b : UInt8} (hb : (t.drop n.1.length).head? = some b) : ¬ Byte.isWord b := by
      rw [List.head?_drop] at hb
      exact (h.stands n hn 0 hnt).not_isWord_behind (by rwa [Nat.zero_add])
    rcases hhead _ x hx with ⟨m, hm, hmt⟩ | ⟨hkept, hfirst⟩
    · obtain ⟨b, w, hw⟩ := List.exists_cons_of_ne_nil (hne m hm)
      rw [hw] at hmt
      obtain ⟨u, hu⟩ := hmt
      rw [← hu] at hbehind
      exact absurd ((h.word m hm).word b (by rw [hw]; exact List.mem_cons_self ..)) (hbehind rfl)
    · exact ⟨hkept, hbehind hfirst⟩
  | miss b t hno ih =>
    rw [substitute_cons hno]
    refine .kept (fun hb x hx => ?_) (ih (h.drop 1))
    rcases hhead _ x hx with ⟨m, hm, hmt⟩ | ⟨hkept, -⟩
    · exact absurd hb ((h.stands m hm 1 hmt).not_isWord_before Nat.one_ne_zero rfl)
    · exact hkept

/-- A word that is no part of what is put in for others is not found there. -/
theorem clear (h : Detached names t) {w : Text} (hw : w.IsWord) (hput : ∀ n ∈ names, ¬ w <:+: n.2) :
    (substitute names t).Clear w := by
  intro p _ hprefix x hx
  have hrun : Marked.bytes (((substitute names t).drop p).take w.length) = w := by
    rw [Marked.bytes, List.map_take]
    exact (List.prefix_iff_eq_take.1 hprefix).symm
  by_contra hmark
  have hsplit : (substitute names t).take p ++ ((substitute names t).drop p).take w.length ++
      ((substitute names t).drop p).drop w.length = substitute names t := by
    rw [List.append_assoc, List.take_append_drop, List.take_append_drop]
  have hframed := h.framed
  rw [← hsplit] at hframed
  have hword : ∀ y ∈ ((substitute names t).drop p).take w.length, Byte.isWord y.1 :=
    fun y hy => hw.word _ (hrun ▸ List.mem_map_of_mem hy)
  obtain ⟨n, hn, hinfix⟩ := hframed.infix_of_put hword ⟨x, hx, by simpa using hmark⟩
  rw [hrun] at hinfix
  exact hput n hn hinfix

/-- If no word is part of what is put in for another, none is found there. -/
theorem apart (h : Detached names t)
    (hput : ∀ n ∈ names, ∀ m ∈ names, n.1 <:+: m.2 → n = m) : Apart names t where
  separate := h.separate
  clear i hi := by
    have hi' := List.getElem_mem hi
    refine (h.mono (List.take_sublist i names)).clear (h.word _ hi') fun m hm hinfix => ?_
    obtain rfl := hput _ hi' m (List.mem_of_mem_take hm) hinfix
    -- An entry does not come before itself.
    obtain ⟨j, hj, hsame⟩ := List.mem_take_iff_getElem.1 hm
    have hnodup : names.Nodup := h.keys.of_map
    have := (hnodup.getElem_inj_iff).1 hsame
    omega

/-- **In whatever order.**  Detached words of which none is part of what is put in for another are
    replaced one after the other as if at once, whatever the order of the entries. -/
theorem foldl_replaceAll (h : Detached names t) (hproper : Proper names)
    (hput : ∀ n ∈ names, ∀ m ∈ names, n.1 <:+: m.2 → n = m) (hperm : names'.Perm names) :
    names'.foldl (fun t n => replaceAll t n.1 n.2) t = (substitute names t).bytes := by
  rw [← substitute_perm hproper hperm h.separate]
  refine foldl_replaceAll_eq (fun n hn => hproper n (hperm.subset hn)) ((h.perm hperm).apart ?_)
  exact fun n hn m hm => hput n (hperm.subset hn) m (hperm.subset hm)

end Detached

end Reasoning.Text
