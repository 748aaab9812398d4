/-
  Writing symbols as words is one simultaneous replacement.

  Symbols that begin with bytes of their own, and of which no byte is put in for another one, do
  not get in each other's way: no two of them overlap in a text, and none comes of what is put in.

  * `Text.Unmistakable`: tables of such words;
  * `Text.Unmistakable.foldl_replaceAll`, `Text.Unmistakable.foldl_replaceAll_append`: they are
    replaced one after the other as if at once, each where it stands;
  * `Text.Unmistakable.not_infix`: and none of them is left;
  * `Connective.normalize_substitutes`: so it is with the logical symbols.
-/
import Reasoning.Proofs.Substitution
import Reasoning.Proofs.Symbols

namespace Reasoning

namespace Text

variable {names names' : Dict Text} {n : Text × Text} {s t w : Text} {b : UInt8}

/-! ## Tables of unmistakable words -/

/-- The words of a table cannot be mistaken for each other: what one begins with stands nowhere
    within another, none begins with another, and no byte of them is put in. -/
structure Unmistakable (names : Dict Text) : Prop where
  proper : Proper names
  lead : ∀ n ∈ names, ∀ m ∈ names, ∀ b ∈ n.1.head?, b ∉ m.1.tail
  whole : ∀ n ∈ names, ∀ m ∈ names, n.1 <+: m.1 → n = m
  foreign : ∀ n ∈ names, ∀ m ∈ names, ∀ b ∈ n.1, b ∉ m.2

/-- A word is not found in or across a text that has none of its bytes. -/
theorem infix_of_infix_append (hne : w ≠ []) (hs : ∀ b ∈ w, b ∉ s) (h : w <:+: s ++ t) :
    w <:+: t := by
  induction s with
  | nil => exact h
  | cons c s ih =>
    rcases List.infix_cons_iff.1 h with hprefix | hinfix
    · obtain ⟨b, v, rfl⟩ := List.exists_cons_of_ne_nil hne
      obtain rfl := (List.cons_prefix_cons.1 hprefix).1
      exact absurd (List.mem_cons_self ..) (hs b (List.mem_cons_self ..))
    · exact ih (fun b hb hmem => hs b hb (List.mem_cons_of_mem _ hmem)) hinfix

namespace Unmistakable

theorem mono (h : Unmistakable names) (hsub : names' ⊆ names) : Unmistakable names' where
  proper n hn := h.proper n (hsub hn)
  lead n hn m hm := h.lead n (hsub hn) m (hsub hm)
  whole n hn m hm := h.whole n (hsub hn) m (hsub hm)
  foreign n hn m hm := h.foreign n (hsub hn) m (hsub hm)

/-- No two words overlap, in whatever text: the second would begin within the first. -/
theorem separate (h : Unmistakable names) (t : Text) : Separate names t := by
  intro q _ p hpq n hn m hm
  rw [mem_standing] at hn hm
  rcases Nat.eq_or_lt_of_le hpq with rfl | hlt
  · refine .inl ⟨rfl, ?_⟩
    rcases List.prefix_or_prefix_of_prefix hn.2 hm.2 with hprefix | hprefix
    · exact h.whole n hn.1 m hm.1 hprefix
    · exact (h.whole m hm.1 n hn.1 hprefix).symm
  · refine .inr (Nat.le_of_not_lt fun hreach => ?_)
    have hpos : 0 < m.1.length := List.length_pos_iff.2 (h.proper m hm.1).1
    have hwithin : q - p < n.1.length := by omega
    have hfirst : t[q]? = some m.1[0] := by
      simpa using List.prefix_iff_getElem?.1 hm.2 0 hpos
    have hbyte : t[q]? = some n.1[q - p] := by
      have := List.prefix_iff_getElem?.1 hn.2 (q - p) hwithin
      rwa [List.getElem?_drop, Nat.add_sub_cancel' hpq] at this
    have htail : n.1[q - p] ∈ n.1.tail := by
      have hshift : q - p - 1 < n.1.tail.length := by rw [List.length_tail]; omega
      have := List.getElem_mem hshift
      rwa [List.getElem_tail, getElem_congr_idx (Nat.sub_add_cancel (by omega))] at this
    rw [← Option.some.inj (hfirst.symm.trans hbyte)] at htail
    refine h.lead m hm.1 n hn.1 _ ?_ htail
    rw [List.head?_eq_getElem?, List.getElem?_eq_getElem hpos]
    rfl

/-- What is put in belongs to an entry. -/
theorem exists_of_put (h : Unmistakable names) (hb : (b, true) ∈ substitute names t) :
    ∃ n ∈ names, b ∈ n.2 := by
  have hne : ∀ n ∈ names, n.1 ≠ [] := fun n hn => (h.proper n hn).1
  induction t using hits_induction hne with
  | nil => cases hb
  | hit t n hn hnt ih =>
    rw [substitute_hit (h.separate t) hn (hne n hn) hnt] at hb
    rcases List.mem_append.1 hb with hb | hb
    · obtain ⟨c, hc, he⟩ := List.mem_map.1 hb
      cases he
      exact ⟨n, hn, hc⟩
    · exact ih hb
  | miss c t hno ih =>
    rw [substitute_cons hno] at hb
    exact ih ((List.mem_cons.1 hb).resolve_left (by simp))

/-- Where a word stands when its turn comes, nothing was put in. -/
theorem clear (h : Unmistakable names) (hsub : names' ⊆ names) (hn : n ∈ names) (t : Text) :
    (substitute names' t).Clear n.1 := by
  intro p _ hprefix ⟨b, mark⟩ hx
  have hword : Marked.bytes (((substitute names' t).drop p).take n.1.length) = n.1 := by
    rw [Marked.bytes, List.map_take]
    exact (List.prefix_iff_eq_take.1 hprefix).symm
  have hb : b ∈ n.1 := hword ▸ List.mem_map_of_mem hx
  cases mark with
  | false => rfl
  | true =>
    obtain ⟨m, hm, hput⟩ :=
      (h.mono hsub).exists_of_put (List.mem_of_mem_drop (List.mem_of_mem_take hx))
    exact absurd hput (h.foreign n hn m (hsub hm) b hb)

theorem apart (h : Unmistakable names) (t : Text) : Apart names t :=
  ⟨h.separate t, fun i hi => h.clear (List.take_subset i names) (List.getElem_mem hi) t⟩

/-- One after the other is at once. -/
theorem foldl_replaceAll (h : Unmistakable names) (t : Text) :
    names.foldl (fun t n => replaceAll t n.1 n.2) t = (substitute names t).bytes :=
  foldl_replaceAll_eq h.proper (h.apart t)

/-- The order of the entries does not matter. -/
theorem foldl_replaceAll_perm (h : Unmistakable names) (hperm : names'.Perm names) (t : Text) :
    names'.foldl (fun t n => replaceAll t n.1 n.2) t =
      names.foldl (fun t n => replaceAll t n.1 n.2) t := by
  rw [(h.mono hperm.subset).foldl_replaceAll, h.foldl_replaceAll,
    substitute_perm h.proper hperm (h.separate t)]

/-- A word is replaced where it stands, and what is before and behind it on its own. -/
theorem foldl_replaceAll_append (h : Unmistakable names) (hn : n ∈ names) (s u : Text) :
    names.foldl (fun t n => replaceAll t n.1 n.2) (s ++ n.1 ++ u) =
      names.foldl (fun t n => replaceAll t n.1 n.2) s ++ n.2 ++
        names.foldl (fun t n => replaceAll t n.1 n.2) u := by
  simp only [h.foldl_replaceAll, substitute_append h.proper hn (h.separate _),
    Marked.bytes_append, Marked.bytes_put]

/-- No word is left: none was overlooked, and none comes of what is put in. -/
theorem not_infix (h : Unmistakable names) (hn : n ∈ names) (t : Text) :
    ¬ n.1 <:+: (substitute names t).bytes := by
  have hne : ∀ n ∈ names, n.1 ≠ [] := fun n hn => (h.proper n hn).1
  induction t using hits_induction hne with
  | nil => exact fun hinfix => hne n hn (List.infix_nil.1 hinfix)
  | hit t m hm hmt ih =>
    rw [substitute_hit (h.separate t) hm (hne m hm) hmt, Marked.bytes_append, Marked.bytes_put]
    exact fun hinfix => ih (infix_of_infix_append (hne n hn) (h.foreign n hn m hm) hinfix)
  | miss b t hno ih =>
    intro hinfix
    have hkept : (substitute names (b :: t)).bytes = b :: (substitute names t).bytes := by
      rw [substitute_cons hno]
      rfl
    rw [hkept] at hinfix
    rcases List.infix_cons_iff.1 hinfix with hprefix | hinfix
    · rw [← hkept] at hprefix
      have hclear := h.clear (List.Subset.refl _) hn (b :: t)
      exact hno n hn (prefix_of_clear h.proper (hne n hn) hclear hprefix)
    · exact ih hinfix

end Unmistakable

end Text

/-! ## Logical symbols -/

namespace Connective

theorem unmistakable_symbols : Text.Unmistakable symbols where
  proper := by unfold Text.Proper; decide +kernel
  lead := by decide +kernel
  whole := by decide +kernel
  foreign := by decide +kernel

theorem not_hasSymbol_normalize (t : Text) : ¬ HasSymbol (normalize t) := by
  rintro ⟨s, hs, hinfix⟩
  rw [normalize, unmistakable_symbols.foldl_replaceAll] at hinfix
  exact unmistakable_symbols.not_infix hs t hinfix

/-- **Symbols are written as words all at once.**  In every text, whatever its bytes, each symbol is
    replaced by its word where it stands, and what is around it on its own; a text without symbols
    stays.  So it is one simultaneous replacement, in which the order of the table has no part, no
    symbol is left, and nothing is left to do a second time. -/
theorem normalize_substitutes (t : Text) :
    normalize t = (Text.substitute symbols t).bytes ∧
    (∀ s ∈ symbols, ∀ before behind, t = before ++ s.1 ++ behind →
      normalize t = normalize before ++ s.2 ++ normalize behind) ∧
    (¬ HasSymbol t → normalize t = t) ∧
    (∀ table : List (Text × Text), table.Perm symbols →
      table.foldl (fun t s => t.replaceAll s.1 s.2) t = normalize t) ∧
    ¬ HasSymbol (normalize t) ∧
    normalize (normalize t) = normalize t := by
  refine ⟨unmistakable_symbols.foldl_replaceAll t, ?_, normalize_of_not_hasSymbol, ?_,
    not_hasSymbol_normalize t, normalize_of_not_hasSymbol (not_hasSymbol_normalize t)⟩
  · rintro s hs before behind rfl
    exact unmistakable_symbols.foldl_replaceAll_append hs before behind
  · exact fun table hperm => unmistakable_symbols.foldl_replaceAll_perm hperm t

/-- Bytes around a symbol that look like parts of one. -/
theorem normalize_substitutes_broken :
    let s := (Text.ofString "∧", Text.ofString " and ")
    let before : Text := [0xE2, 0x88]
    let behind : Text := [0xA7, 0xC2] ++ Text.ofString "→ q"
    let t := before ++ s.1 ++ behind
    s ∈ symbols ∧ normalize t = normalize before ++ s.2 ++ normalize behind ∧
      (¬ HasSymbol before ∧ normalize before = before) ∧
      symbols.reverse.Perm symbols ∧
        symbols.reverse.foldl (fun t s => t.replaceAll s.1 s.2) t = normalize t := by
  intro s before behind t
  have hs : s ∈ symbols := by decide +kernel
  have hnone : ¬ HasSymbol before := by decide +kernel
  have hperm : symbols.reverse.Perm symbols := List.reverse_perm symbols
  obtain ⟨-, hsplit, -, horder, -⟩ := normalize_substitutes t
  obtain ⟨-, -, hstays, -⟩ := normalize_substitutes before
  exact ⟨hs, hsplit s hs before behind rfl, ⟨hnone, hstays hnone⟩, hperm, horder _ hperm⟩

end Connective

end Reasoning
