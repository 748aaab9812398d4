/-
  What the pieces of a match are made of.

  * `Regex.Over`: an expression without groups over a class of bytes, `Regex.run_over`: it goes
    over bytes of that class;
  * `Regex.Grouped p e`: all groups are over a class, `Regex.piece_of_grouped`: so are the pieces of
    a match;
  * `Regex.run_space`: space between two groups cuts no symbol;
  * `Regex.run_group_last`: a group at the end takes bytes of its class as long as they last.
-/
import Reasoning.Proofs.Utf8
import Reasoning.Text.Regex

namespace Reasoning.Regex

variable {α : Type} {p : UInt8 → Bool} {e : Regex} {x : Place} {a : α}

theorem or_of_orElse {o o' : Option α} (h : (o <|> o') = some a) : o = some a ∨ o' = some a := by
  cases o with
  | none => exact .inr h
  | some b => exact .inl h

theorem runMany_eq_some {k : Place → Option α} {previous : Option UInt8} {t : Text}
    (h : runMany p k previous t = some a) :
    ∃ s y, t = s ++ y.rest ∧ (∀ b ∈ s, p b = true) ∧ k y = some a := by
  induction t generalizing previous with
  | nil => exact ⟨[], _, rfl, List.forall_mem_nil _, h⟩
  | cons b t ih =>
    have hhere (h : k ⟨previous, b :: t⟩ = some a) :
        ∃ s y, b :: t = s ++ y.rest ∧ (∀ b ∈ s, p b = true) ∧ k y = some a :=
      ⟨[], _, rfl, List.forall_mem_nil _, h⟩
    rw [runMany] at h
    split at h
    · rename_i hb
      rcases or_of_orElse h with h | h
      · obtain ⟨s, y, hs, hp, hy⟩ := ih h
        exact ⟨b :: s, y, by rw [hs, List.cons_append], List.forall_mem_cons.2 ⟨hb, hp⟩, hy⟩
      · exact hhere h
    · exact hhere h

theorem runFew_eq_some {k : Place → Option α} {previous : Option UInt8} {t : Text}
    (h : runFew p k previous t = some a) :
    ∃ s y, t = s ++ y.rest ∧ (∀ b ∈ s, p b = true) ∧ k y = some a := by
  induction t generalizing previous with
  | nil => exact ⟨[], _, rfl, List.forall_mem_nil _, h⟩
  | cons b t ih =>
    rw [runFew] at h
    rcases or_of_orElse h with h | h
    · exact ⟨[], _, rfl, List.forall_mem_nil _, h⟩
    · split at h
      · rename_i hb
        obtain ⟨s, y, hs, hp, hy⟩ := ih h
        exact ⟨b :: s, y, by rw [hs, List.cons_append], List.forall_mem_cons.2 ⟨hb, hp⟩, hy⟩
      · cases h

/-- Bytes of a class are taken as long as they last where what follows cannot fail. -/
theorem runMany_of_total {k : Place → Option α} (hk : ∀ y, (k y).isSome)
    (previous : Option UInt8) (t : Text) :
    ∃ previous', runMany p k previous t = k ⟨previous', t.dropWhile p⟩ := by
  induction t generalizing previous with
  | nil => exact ⟨previous, rfl⟩
  | cons b t ih =>
    rw [runMany, List.dropWhile_cons]
    split
    · obtain ⟨previous', h⟩ := ih (some b)
      refine ⟨previous', ?_⟩
      rw [h]
      obtain ⟨a, ha⟩ := Option.isSome_iff_exists.1 (hk ⟨previous', t.dropWhile p⟩)
      rw [ha]
      rfl
    · exact ⟨previous, rfl⟩

/-! ## Expressions over a class of bytes -/

/-- The expression has no groups, and all its bytes are of a class. -/
def Over (p : UInt8 → Prop) : Regex → Prop
  | byte q | many q | few q => ∀ b, q b = true → p b
  | boundary => True
  | seq e f | alt e f => Over p e ∧ Over p f
  | opt e => Over p e
  | group _ _ => False

instance decidableOver (p : UInt8 → Prop) [DecidablePred p] : DecidablePred (Over p)
  | byte q | many q | few q => decidableForallByte fun b => q b = true → p b
  | boundary => .isTrue trivial
  | seq e f | alt e f =>
    have := decidableOver p e
    have := decidableOver p f
    inferInstanceAs (Decidable (Over p e ∧ Over p f))
  | opt e => decidableOver p e
  | group _ _ => .isFalse id

theorem run_over {p : UInt8 → Prop} (he : e.Over p) {k : Place → Captures → Option α}
    {c : Captures} (h : run e k x c = some a) :
    ∃ s y, x.rest = s ++ y.rest ∧ (∀ b ∈ s, p b) ∧ k y c = some a := by
  induction e generalizing x k with
  | byte q =>
    rw [run] at h
    split at h
    · cases h
    · rename_i b t hrest
      split at h
      · rename_i hb
        exact ⟨[b], ⟨some b, t⟩, hrest, by simpa using he b hb, h⟩
      · cases h
  | boundary =>
    rw [run] at h
    split at h
    · exact ⟨[], x, rfl, List.forall_mem_nil _, h⟩
    · cases h
  | seq e f ihe ihf =>
    obtain ⟨s, y, hs, hps, h⟩ := ihe he.1 h
    obtain ⟨t, z, ht, hpt, h⟩ := ihf he.2 h
    exact ⟨s ++ t, z, by rw [hs, ht, List.append_assoc], List.forall_mem_append.2 ⟨hps, hpt⟩, h⟩
  | alt e f ihe ihf => exact (or_of_orElse h).elim (ihe he.1) (ihf he.2)
  | opt e ih =>
    exact (or_of_orElse h).elim (ih he) fun h => ⟨[], x, rfl, List.forall_mem_nil _, h⟩
  | many q =>
    obtain ⟨s, y, hs, hp, h⟩ := runMany_eq_some h
    exact ⟨s, y, hs, fun b hb => he b (hp b hb), h⟩
  | few q =>
    obtain ⟨s, y, hs, hp, h⟩ := runFew_eq_some h
    exact ⟨s, y, hs, fun b hb => he b (hp b hb), h⟩
  | group n e => exact he.elim

theorem run_atLeastOne {k : Place → Captures → Option α} {c : Captures}
    (h : run (atLeastOne p) k x c = some a) :
    ∃ b s y, x.rest = b :: (s ++ y.rest) ∧ p b = true ∧ (∀ b ∈ s, p b = true) ∧
      k y c = some a := by
  rw [atLeastOne, run, run] at h
  split at h
  · cases h
  · rename_i b t hrest
    split at h
    · rename_i hb
      obtain ⟨s, y, hs, hp, h⟩ := runMany_eq_some h
      exact ⟨b, s, y, hrest.trans (congrArg (b :: ·) hs), hb, hp, h⟩
    · cases h

/-! ## Groups -/

/-- All groups are over a class of bytes. -/
def Grouped (p : UInt8 → Prop) : Regex → Prop
  | seq e f | alt e f => Grouped p e ∧ Grouped p f
  | opt e => Grouped p e
  | group _ e => Over p e
  | _ => True

instance decidableGrouped (p : UInt8 → Prop) [DecidablePred p] : DecidablePred (Grouped p)
  | seq e f | alt e f =>
    have := decidableGrouped p e
    have := decidableGrouped p f
    inferInstanceAs (Decidable (Grouped p e ∧ Grouped p f))
  | opt e => decidableGrouped p e
  | group _ e => decidableOver p e
  | byte _ | many _ | few _ | boundary => .isTrue trivial

theorem take_length_sub (s t : Text) : (s ++ t).take ((s ++ t).length - t.length) = s := by
  rw [List.length_append, Nat.add_sub_cancel, List.take_left]

theorem run_grouped {p : UInt8 → Prop} (he : e.Grouped p) {k : Place → Captures → Option α}
    {c : Captures} (h : run e k x c = some a) :
    ∃ y d, k y (d ++ c) = some a ∧ ∀ g ∈ d, ∀ b ∈ g.2, p b := by
  have hplain {e : Regex} (he : e.Over fun _ => True) {k : Place → Captures → Option α} {x : Place}
      {c : Captures} (h : run e k x c = some a) :
      ∃ y d, k y (d ++ c) = some a ∧ ∀ g ∈ d, ∀ b ∈ g.2, p b := by
    obtain ⟨-, y, -, -, h⟩ := run_over he h
    exact ⟨y, [], h, List.forall_mem_nil _⟩
  induction e generalizing x k c with
  | byte q => exact hplain (e := byte q) (fun _ _ => trivial) h
  | boundary => exact hplain (e := boundary) trivial h
  | many q => exact hplain (e := many q) (fun _ _ => trivial) h
  | few q => exact hplain (e := few q) (fun _ _ => trivial) h
  | seq e f ihe ihf =>
    obtain ⟨y, d, h, hd⟩ := ihe he.1 h
    obtain ⟨z, d', h, hd'⟩ := ihf he.2 h
    exact ⟨z, d' ++ d, by rwa [List.append_assoc], List.forall_mem_append.2 ⟨hd', hd⟩⟩
  | alt e f ihe ihf => exact (or_of_orElse h).elim (ihe he.1) (ihf he.2)
  | opt e ih =>
    exact (or_of_orElse h).elim (ih he) fun h => ⟨x, [], h, List.forall_mem_nil _⟩
  | group n e =>
    obtain ⟨s, y, hs, hp, h⟩ := run_over (show e.Over p from he) h
    rw [hs, take_length_sub] at h
    exact ⟨y, [(n, s)], h, by simpa using hp⟩

/-! ## Expressions one after the other -/

theorem run_ofList_cons (e f : Regex) (es : List Regex) (k : Place → Captures → Option α) :
    run (ofList (e :: f :: es)) k = run e (run (ofList (f :: es)) k) := by
  funext x c
  rw [ofList, run]
  exact List.cons_ne_nil f es

/-! ## Pieces between spaces -/

/-- Space in a valid text cuts it into valid texts. -/
theorem run_space {s : Text} {k : Place → Captures → Option α} {c : Captures}
    (hv : Text.Valid (s ++ x.rest)) (h : run space k x c = some a) :
    ∃ y, s.Valid ∧ y.rest.Valid ∧ k y c = some a := by
  obtain ⟨b, t, y, hrest, hb, ht, h⟩ := run_atLeastOne h
  have hspace : ∀ d ∈ b :: t, d < 0x80 := fun d hd =>
    Text.ascii_isSpace d ((List.forall_mem_cons (p := (Byte.isSpace · = true))).2 ⟨hb, ht⟩ d hd)
  rw [hrest] at hv
  obtain ⟨hs, hv⟩ := hv.cut (Text.starts_cons (hspace b (List.mem_cons_self ..)))
  exact ⟨y, hs, ((Text.valid_of_ascii hspace).append_iff (t := y.rest)).1 hv, h⟩

/-- A group without groups of its own keeps what it goes over. -/
theorem run_group {n : Nat} {k : Place → Captures → Option α} {c : Captures}
    (he : e.Over fun _ => True) (h : run (group n e) k x c = some a) :
    ∃ s y, x.rest = s ++ y.rest ∧ k y ((n, s) :: c) = some a := by
  obtain ⟨s, y, hs, -, h⟩ := run_over he h
  rw [hs, take_length_sub] at h
  exact ⟨s, y, hs, h⟩

/-- A group at the end takes all bytes of its class. -/
theorem run_group_last {n : Nat} {k : Place → Captures → Option α} {c : Captures}
    (hk : ∀ y d, (k y d).isSome) (h : run (group n (atLeastOne p)) k x c = some a) :
    ∃ y, k y ((n, x.rest.takeWhile p) :: c) = some a := by
  rw [run, atLeastOne, run, run] at h
  split at h
  · cases h
  · rename_i b t hrest
    split at h
    · rename_i hb
      rw [run] at h
      dsimp only at h
      obtain ⟨previous, hmany⟩ := runMany_of_total (p := p)
        (fun y => hk y ((n, x.rest.take (x.rest.length - y.rest.length)) :: c)) (some b) t
      rw [hmany] at h
      have hpiece := take_length_sub (b :: t.takeWhile p) (t.dropWhile p)
      rw [List.cons_append, List.takeWhile_append_dropWhile] at hpiece
      rw [hrest, List.takeWhile_cons_of_pos hb]
      rw [hrest, hpiece] at h
      exact ⟨_, h⟩
    · cases h

/-! ## Matches -/

variable {t : Text} {m : Match}

theorem exists_of_mem_allFrom {previous : Option UInt8} {skip : Nat}
    (h : m ∈ allFrom e previous skip t) :
    ∃ previous' s u, t = s ++ u ∧ e.matchAt ⟨previous', u⟩ = some m := by
  induction t generalizing previous skip with
  | nil =>
    rw [allFrom] at h
    cases h
  | cons b t ih =>
    have hrest {skip : Nat} (h : m ∈ allFrom e (some b) skip t) :
        ∃ previous' s u, b :: t = s ++ u ∧ e.matchAt ⟨previous', u⟩ = some m := by
      obtain ⟨previous', s, u, rfl, hm⟩ := ih h
      exact ⟨previous', b :: s, u, rfl, hm⟩
    cases skip with
    | succ skip => exact hrest (by rwa [allFrom] at h)
    | zero =>
      rw [allFrom] at h
      split at h
      · rename_i n hn
        rcases List.mem_cons.1 h with rfl | h
        · exact ⟨previous, [], b :: t, rfl, hn⟩
        · exact hrest h
      · exact hrest h

/-- A match stands somewhere in the text. -/
theorem exists_of_mem_all (h : m ∈ e.all t) :
    ∃ previous s u, t = s ++ u ∧ e.matchAt ⟨previous, u⟩ = some m :=
  exists_of_mem_allFrom h

theorem exists_of_searchFrom {previous : Option UInt8} (h : searchFrom e previous t = some m) :
    ∃ previous' s u, t = s ++ u ∧ e.matchAt ⟨previous', u⟩ = some m := by
  induction t generalizing previous with
  | nil => cases h
  | cons b t ih =>
    rcases or_of_orElse h with h | h
    · exact ⟨previous, [], b :: t, rfl, h⟩
    · obtain ⟨previous', s, u, rfl, hm⟩ := ih h
      exact ⟨previous', b :: s, u, rfl, hm⟩

theorem exists_of_search (h : e.search t = some m) :
    ∃ previous s u, t = s ++ u ∧ e.matchAt ⟨previous, u⟩ = some m :=
  exists_of_searchFrom h

/-- The pieces of groups over a class are made of that class. -/
theorem piece_of_grouped {p : UInt8 → Prop} (he : e.Grouped p) (h : e.matchAt x = some m)
    (n : Nat) : ∀ b ∈ m.piece n, p b := by
  obtain ⟨y, d, hd, hp⟩ := run_grouped he h
  cases hd
  unfold Match.piece
  cases hs : List.lookup n (d ++ []) with
  | none => exact List.forall_mem_nil _
  | some s =>
    obtain ⟨before, after, he, -⟩ := List.lookup_eq_some_iff.1 hs
    rw [List.append_nil] at he
    exact hp (n, s) (by simp [he])

end Reasoning.Regex
