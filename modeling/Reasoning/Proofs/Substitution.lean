/-
  Replacing several words in a text at once.

  Entries of a table that are replaced one after the other, each in the text that the others have
  left, may find their words in what was put in before.  Where they do not, and where no two words
  overlap in the text, all is as if every word were replaced at the same time.

  * `Text.substitute`: all words of a table are replaced at once, from the left;
  * `Text.Apart`: no two words overlap, and none is found in what was put in;
  * `Text.hits_induction`: texts by what stands at their beginning;
  * `Text.foldl_replaceAll_eq`: then one after the other is the same as at once;
  * `Text.substitute_append`: every word is replaced, and what is around it on its own;
  * `Text.substitute_perm`: the order of the table does not matter.
-/
import Mathlib.Data.List.Induction
import Reasoning.Dict
import Reasoning.Proofs.Pieces
import Reasoning.Proofs.Utf8

namespace Reasoning.Text

/-! ## Marked texts -/

/-- A text of which each byte says whether it was put in. -/
abbrev Marked := List (UInt8 × Bool)

namespace Marked

/-- The text without the marks. -/
def bytes (m : Marked) : Text := m.map (·.1)

/-- A text that is all put in. -/
def put (t : Text) : Marked := t.map fun b => (b, true)

/-- A text of which nothing is put in. -/
def kept (t : Text) : Marked := t.map fun b => (b, false)

@[simp] theorem bytes_append (m m' : Marked) : bytes (m ++ m') = m.bytes ++ m'.bytes :=
  List.map_append

@[simp] theorem bytes_put (t : Text) : (put t).bytes = t := by
  rw [bytes, put, List.map_map]
  exact List.map_id t

@[simp] theorem bytes_kept (t : Text) : (kept t).bytes = t := by
  rw [bytes, kept, List.map_map]
  exact List.map_id t

/-- Where the word stands in the text, nothing is put in. -/
def Clear (m : Marked) (w : Text) : Prop :=
  ∀ p < m.length, w <+: bytes (m.drop p) → ∀ x ∈ (m.drop p).take w.length, x.2 = false

instance (m : Marked) (w : Text) : Decidable (m.Clear w) :=
  @Nat.decidableBallLT m.length _ fun p _ =>
    -- Marked bytes are finitely many, so that the instance for lists has to be named.
    @forall_prop_decidable _ _ inferInstance fun _ =>
      List.decidableBAll (fun x => x.2 = false) ((m.drop p).take w.length)

theorem Clear.of_append {m m' : Marked} {w : Text} (h : Clear (m ++ m') w) : m'.Clear w := by
  intro p hp hw
  have hdrop : (m ++ m').drop (m.length + p) = m'.drop p := by
    rw [← List.drop_drop, List.drop_left]
  have hclear := h (m.length + p) (by rw [List.length_append]; omega)
  rw [hdrop] at hclear
  exact hclear hw

end Marked

/-! ## Replacing at once -/

/-- `substitute`, with the number of bytes of the last word that are still to be passed over. -/
def substituteFrom (names : Dict Text) : Nat → Text → Marked
  | _, [] => []
  | skip + 1, _ :: t => substituteFrom names skip t
  | 0, b :: t => match names.find? fun n => n.1.isPrefixOf (b :: t) with
    | some n => Marked.put n.2 ++ substituteFrom names (n.1.length - 1) t
    | none => (b, false) :: substituteFrom names 0 t

/-- Replaces every word of a table that stands in the text, from the left and without overlaps. -/
def substitute (names : Dict Text) (t : Text) : Marked := substituteFrom names 0 t

/-- The entries whose words stand in the text at an offset. -/
def standing (names : Dict Text) (t : Text) (p : Nat) : Dict Text :=
  names.filter fun n => n.1.isPrefixOf (t.drop p)

/-- No two words of the table overlap in the text. -/
def Separate (names : Dict Text) (t : Text) : Prop :=
  ∀ q < t.length, ∀ p ≤ q, ∀ n ∈ standing names t p, ∀ m ∈ standing names t q,
    (p = q ∧ n = m) ∨ p + n.1.length ≤ q

instance (names : Dict Text) (t : Text) : Decidable (Separate names t) := by
  unfold Separate
  infer_instance

/-- No two words of the table overlap in the text, and where a word stands when its turn comes,
    nothing was put in. -/
structure Apart (names : Dict Text) (t : Text) : Prop where
  separate : Separate names t
  clear : ∀ i, (h : i < names.length) → (substitute (names.take i) t).Clear names[i].1

/-- No word is empty, and nothing empty is put in. -/
def Proper (names : Dict Text) : Prop := ∀ n ∈ names, n.1 ≠ [] ∧ n.2 ≠ []

variable {names : Dict Text} {n m : Text × Text} {t : Text}

theorem mem_standing {p : Nat} : n ∈ standing names t p ↔ n ∈ names ∧ n.1 <+: t.drop p := by
  rw [standing, List.mem_filter, List.isPrefixOf_iff_prefix]

theorem Separate.drop (h : Separate names t) (k : Nat) : Separate names (t.drop k) := by
  have hshift : ∀ p, standing names (t.drop k) p = standing names t (k + p) := fun p => by
    rw [standing, standing, List.drop_drop]
  intro q hq p hp n hn m hm
  rw [hshift] at hn hm
  rw [List.length_drop] at hq
  rcases h (k + q) (by omega) (k + p) (by omega) n hn m hm with ⟨hpq, he⟩ | hle
  · exact .inl ⟨Nat.add_left_cancel hpq, he⟩
  · exact .inr (by omega)

theorem Separate.of_append {u : Text} (h : Separate names (t ++ u)) : Separate names t := by
  have hstands : ∀ {p n}, n ∈ standing names t p → n ∈ standing names (t ++ u) p := fun hn => by
    rw [mem_standing] at hn ⊢
    exact ⟨hn.1, hn.2.trans (by rw [List.drop_append]; exact List.prefix_append ..)⟩
  intro q hq p hp n hn m hm
  exact h q (by rw [List.length_append]; omega) p hp n (hstands hn) m (hstands hm)

theorem Separate.mono {names' : Dict Text} (h : Separate names t) (hsub : names' ⊆ names) :
    Separate names' t := by
  intro q hq p hp n hn m hm
  rw [mem_standing] at hn hm
  exact h q hq p hp n (mem_standing.2 ⟨hsub hn.1, hn.2⟩) m (mem_standing.2 ⟨hsub hm.1, hm.2⟩)

/-- Only one word stands at the beginning. -/
theorem Separate.eq_of_hits (h : Separate names t) (hn : n ∈ names) (hm : m ∈ names)
    (hne : n.1 ≠ []) (hnt : n.1 <+: t) (hmt : m.1 <+: t) : n = m := by
  have hpos : 0 < t.length := Nat.lt_of_lt_of_le (List.length_pos_iff.2 hne) hnt.length_le
  have hlen := List.length_pos_iff.2 hne
  rcases h 0 hpos 0 (Nat.le_refl 0) n (mem_standing.2 ⟨hn, hnt⟩) m (mem_standing.2 ⟨hm, hmt⟩) with
    ⟨-, he⟩ | hle
  · exact he
  · omega

/-- A word that stands behind the beginning stands behind the word at the beginning. -/
theorem Separate.length_le (h : Separate names t) (hn : n ∈ names) (hm : m ∈ names)
    (hnt : n.1 <+: t) {q : Nat} (hq : q ≠ 0) (hlt : q < t.length) (hmt : m.1 <+: t.drop q) :
    n.1.length ≤ q := by
  rcases h q hlt 0 (Nat.zero_le q) n (mem_standing.2 ⟨hn, hnt⟩) m (mem_standing.2 ⟨hm, hmt⟩) with
    ⟨he, -⟩ | hle
  · exact absurd he.symm hq
  · omega

/-! ### One step -/

theorem substituteFrom_eq (names : Dict Text) (k : Nat) (t : Text) :
    substituteFrom names k t = substitute names (t.drop k) := by
  induction t generalizing k with
  | nil => cases k <;> rfl
  | cons b t ih =>
    cases k with
    | zero => rfl
    | succ k => rw [List.drop_succ_cons, ← ih, substituteFrom]

@[simp] theorem substitute_nil (names : Dict Text) : substitute names [] = [] := rfl

/-- The first entry whose word stands at the beginning is put in. -/
theorem substitute_of_find? (hne : n.1 ≠ [])
    (h : names.find? (fun n => n.1.isPrefixOf t) = some n) :
    substitute names t = Marked.put n.2 ++ substitute names (t.drop n.1.length) := by
  cases t with
  | nil =>
    have hprefix := List.find?_some h
    exact absurd (List.prefix_nil.1 (List.isPrefixOf_iff_prefix.1 hprefix)) hne
  | cons b t =>
    obtain ⟨a, w, hw⟩ := List.exists_cons_of_ne_nil hne
    rw [substitute, substituteFrom, h]
    dsimp only
    rw [substituteFrom_eq, hw]
    rfl

/-- If a word stands at the beginning, an entry is put in. -/
theorem exists_find? (hn : n ∈ names) (hnt : n.1 <+: t) :
    ∃ m ∈ names, m.1 <+: t ∧ names.find? (fun n => n.1.isPrefixOf t) = some m := by
  have hsome : (names.find? fun n => n.1.isPrefixOf t).isSome :=
    List.find?_isSome.2 ⟨n, hn, List.isPrefixOf_iff_prefix.2 hnt⟩
  obtain ⟨m, hm⟩ := Option.isSome_iff_exists.1 hsome
  exact ⟨m, List.mem_of_find?_eq_some hm, by simpa using List.find?_some hm, hm⟩

/-- The word that stands at the beginning is replaced. -/
theorem substitute_hit (h : Separate names t) (hn : n ∈ names) (hne : n.1 ≠ [])
    (hnt : n.1 <+: t) :
    substitute names t = Marked.put n.2 ++ substitute names (t.drop n.1.length) := by
  obtain ⟨m, hm, hmt, hfind⟩ := exists_find? hn hnt
  obtain rfl := h.eq_of_hits hn hm hne hnt hmt
  exact substitute_of_find? hne hfind

/-- A byte at which no word stands is kept. -/
theorem substitute_cons {b : UInt8} (h : ∀ n ∈ names, ¬ n.1 <+: b :: t) :
    substitute names (b :: t) = (b, false) :: substitute names t := by
  have hnone : (names.find? fun n => n.1.isPrefixOf (b :: t)) = none :=
    List.find?_eq_none.2 fun n hn hprefix => h n hn (List.isPrefixOf_iff_prefix.1 hprefix)
  rw [substitute, substituteFrom, hnone]
  rfl

/-- Bytes at which no word stands are kept. -/
theorem substitute_kept {s : Text}
    (h : ∀ p < s.length, ∀ n ∈ names, ¬ n.1 <+: (s ++ t).drop p) :
    substitute names (s ++ t) = Marked.kept s ++ substitute names t := by
  induction s with
  | nil => rfl
  | cons b s ih =>
    have hfirst : substitute names (b :: (s ++ t)) = (b, false) :: substitute names (s ++ t) :=
      substitute_cons (h 0 (Nat.succ_pos _))
    rw [List.cons_append, hfirst]
    exact congrArg ((b, false) :: ·) (ih fun p hp => h (p + 1) (Nat.succ_lt_succ hp))

/-- A text is read from the left, a word of the table or a byte at which none stands at a time. -/
@[elab_as_elim]
theorem hits_induction {motive : Text → Prop} (hne : ∀ n ∈ names, n.1 ≠ []) (nil : motive [])
    (hit : ∀ t, ∀ n ∈ names, n.1 <+: t → motive (t.drop n.1.length) → motive t)
    (miss : ∀ b t, (∀ n ∈ names, ¬ n.1 <+: b :: t) → motive t → motive (b :: t)) (t : Text) :
    motive t := by
  induction hlen : t.length using Nat.strong_induction_on generalizing t with
  | _ len ih =>
    cases t with
    | nil => exact nil
    | cons b t =>
      rw [List.length_cons] at hlen
      by_cases hstands : ∃ n ∈ names, n.1 <+: b :: t
      · obtain ⟨n, hn, hnt⟩ := hstands
        have hpos := List.length_pos_iff.2 (hne n hn)
        refine hit _ n hn hnt (ih _ ?_ _ rfl)
        rw [List.length_drop, List.length_cons]
        omega
      · exact miss b t (fun n hn hnt => hstands ⟨n, hn, hnt⟩) (ih _ (by omega) t rfl)

/-- What is kept at the beginning stands there. -/
theorem take_bytes_substitute (hproper : Proper names) {k : Nat}
    (h : ∀ x ∈ (substitute names t).take k, x.2 = false) :
    Marked.bytes ((substitute names t).take k) <+: t := by
  induction k generalizing t with
  | zero => exact List.nil_prefix
  | succ k ih =>
    cases t with
    | nil => exact List.nil_prefix
    | cons b t =>
      by_cases hstands : ∃ n ∈ names, n.1 <+: b :: t
      · obtain ⟨n, hn, hnt⟩ := hstands
        obtain ⟨m, hm, -, hfind⟩ := exists_find? hn hnt
        obtain ⟨hne, hput⟩ := hproper m hm
        obtain ⟨c, u, hu⟩ := List.exists_cons_of_ne_nil hput
        -- The first byte was put in.
        rw [substitute_of_find? hne hfind, hu] at h
        cases h (c, true) (List.mem_cons_self ..)
      · rw [substitute_cons fun n hn hnt => hstands ⟨n, hn, hnt⟩] at h ⊢
        refine List.cons_prefix_cons.2 ⟨rfl, ih fun x hx => h x (List.mem_cons_of_mem _ hx)⟩

/-- A word that is found at the beginning where nothing was put in stood there before. -/
theorem prefix_of_clear (hproper : Proper names) {w : Text} (hne : w ≠ [])
    (hclear : (substitute names t).Clear w) (h : w <+: (substitute names t).bytes) : w <+: t := by
  have hpos : 0 < (substitute names t).length := by
    have := h.length_le
    rw [Marked.bytes, List.length_map] at this
    exact Nat.lt_of_lt_of_le (List.length_pos_iff.2 hne) this
  have htake := take_bytes_substitute hproper (hclear 0 hpos h)
  have hw : Marked.bytes ((substitute names t).take w.length) = w := by
    rw [Marked.bytes, List.map_take]
    exact (List.prefix_iff_eq_take.1 h).symm
  rwa [hw] at htake

/-! ## One after the other -/

/-- What replacing makes of a text, in one pass over the text as it was given; with the number of
    bytes of the last occurrence that are still to be passed over. -/
def replaceFrom (old new : Text) : Nat → Text → Text
  | _, [] => []
  | skip + 1, _ :: t => replaceFrom old new skip t
  | 0, b :: t =>
    if old.isPrefixOf (b :: t) then new ++ replaceFrom old new (old.length - 1) t
    else b :: replaceFrom old new 0 t

theorem replaceFrom_eq (old new : Text) (k : Nat) (t : Text) :
    replaceFrom old new k t = replaceFrom old new 0 (t.drop k) := by
  induction t generalizing k with
  | nil => cases k <;> rfl
  | cons b t ih =>
    cases k with
    | zero => rfl
    | succ k => rw [List.drop_succ_cons, ← ih, replaceFrom]

theorem replaceFrom_hit {old new : Text} (hne : old ≠ []) (t : Text) :
    replaceFrom old new 0 (old ++ t) = new ++ replaceFrom old new 0 t := by
  obtain ⟨b, w, rfl⟩ := List.exists_cons_of_ne_nil hne
  have hprefix : (b :: w).isPrefixOf (b :: (w ++ t)) :=
    List.isPrefixOf_iff_prefix.2 (List.prefix_append (b :: w) t)
  rw [List.cons_append, replaceFrom, if_pos hprefix, replaceFrom_eq, List.length_cons,
    Nat.add_sub_cancel, List.drop_left]

theorem replaceFrom_cons {old : Text} (new : Text) {b : UInt8} (h : ¬ old <+: b :: t) :
    replaceFrom old new 0 (b :: t) = b :: replaceFrom old new 0 t := by
  rw [replaceFrom, if_neg fun hprefix => h (List.isPrefixOf_iff_prefix.1 hprefix)]

/-- A word is not found in what was put in. -/
theorem replaceFrom_put {old : Text} (new : Text) (hne : old ≠ []) {u : Text} {m : Marked}
    (h : Marked.Clear (Marked.put u ++ m) old) :
    replaceFrom old new 0 (u ++ m.bytes) = u ++ replaceFrom old new 0 m.bytes := by
  induction u with
  | nil => rfl
  | cons b u ih =>
    have hno : ¬ old <+: b :: (u ++ m.bytes) := fun hprefix => by
      obtain ⟨c, w, rfl⟩ := List.exists_cons_of_ne_nil hne
      have hbytes : Marked.bytes (Marked.put (b :: u) ++ m) = b :: (u ++ m.bytes) := by simp
      have hclear := h 0 (Nat.succ_pos _) (by rw [List.drop_zero, hbytes]; exact hprefix)
      cases hclear (b, true) (List.mem_cons_self ..)
    rw [List.cons_append, replaceFrom_cons new hno,
      ih (Marked.Clear.of_append (m := [(b, true)]) h), List.cons_append]

/-- **One entry more.**  What the entries before it leave of a text, with the word of the entry
    replaced, is the text with all words replaced at once. -/
theorem replaceFrom_substitute (hproper : Proper (names ++ [n])) (hsep : Separate (names ++ [n]) t)
    (hclear : (substitute names t).Clear n.1) :
    replaceFrom n.1 n.2 0 (substitute names t).bytes = (substitute (names ++ [n]) t).bytes := by
  have hne : ∀ m ∈ names ++ [n], m.1 ≠ [] := fun m hm => (hproper m hm).1
  have hsub : names ⊆ names ++ [n] := List.subset_append_left ..
  have hself : n ∈ names ++ [n] := List.mem_append_right _ (List.mem_singleton_self n)
  induction t using hits_induction hne with
  | nil => rfl
  | hit t m hm hmt ih =>
    have hrest := ih (hsep.drop _)
    by_cases hbefore : m ∈ names
    · -- A word of the others passes as it was put in.
      rw [substitute_hit (hsep.mono hsub) hbefore (hne m hm) hmt] at hclear ⊢
      rw [substitute_hit hsep hm (hne m hm) hmt, Marked.bytes_append, Marked.bytes_put,
        replaceFrom_put n.2 (hne n hself) hclear, Marked.bytes_append, Marked.bytes_put,
        hrest hclear.of_append]
    · -- The word of the entry is there as the others have kept it.
      obtain rfl : m = n := List.mem_singleton.1 ((List.mem_append.1 hm).resolve_left hbefore)
      obtain ⟨u, rfl⟩ := hmt
      have hkept : ∀ p < m.1.length, ∀ l ∈ names, ¬ l.1 <+: (m.1 ++ u).drop p := by
        intro p hp l hl hlp
        rcases Nat.eq_zero_or_pos p with rfl | hpos
        · exact hbefore (hsep.eq_of_hits hm (hsub hl) (hne m hm) (List.prefix_append ..) hlp ▸ hl)
        · have := hsep.length_le hm (hsub hl) (List.prefix_append ..) (Nat.ne_of_gt hpos)
            (by rw [List.length_append]; omega) hlp
          omega
      rw [List.drop_left] at hrest
      rw [substitute_kept hkept] at hclear ⊢
      rw [substitute_hit hsep hm (hne m hm) (List.prefix_append ..), List.drop_left,
        Marked.bytes_append, Marked.bytes_kept, replaceFrom_hit (hne m hm), Marked.bytes_append,
        Marked.bytes_put, hrest hclear.of_append]
  | miss b t hno ih =>
    -- Nothing stands at the beginning, and the entry finds nothing there either.
    have hkept : substitute names (b :: t) = (b, false) :: substitute names t :=
      substitute_cons fun m hm => hno m (hsub hm)
    have hunfound : ¬ n.1 <+: (substitute names (b :: t)).bytes := fun hfound =>
      hno n hself (prefix_of_clear (fun m hm => hproper m (hsub hm)) (hne n hself) hclear hfound)
    rw [hkept] at hunfound hclear ⊢
    rw [substitute_cons hno]
    exact (replaceFrom_cons n.2 hunfound).trans (congrArg (b :: ·)
      (ih (hsep.drop 1) (Marked.Clear.of_append (m := [(b, false)]) hclear)))

theorem replaceAll_eq_replaceFrom {old : Text} (hne : old ≠ []) (t new : Text) :
    replaceAll t old new = replaceFrom old new 0 t := by
  obtain ⟨p, ps, hps⟩ := exists_pieces hne t
  rw [hps.replaceAll_eq hne]
  generalize p :: ps = pieces at hps
  induction hps with
  | nil => rfl
  | hit hps ih => rw [replaceFrom_hit hne, join_nil_cons _ hps.ne_nil, ih]
  | miss hno _ ih => rw [replaceFrom_cons new hno, join_cons_append, ih]

theorem Apart.of_concat (h : Apart (names ++ [n]) t) :
    Apart names t ∧ (substitute names t).Clear n.1 := by
  refine ⟨⟨h.separate.mono (List.subset_append_left ..), fun i hi => ?_⟩, ?_⟩
  · have := h.clear i (by rw [List.length_append]; omega)
    rwa [List.take_append_of_le_length (Nat.le_of_lt hi), List.getElem_append_left hi] at this
  · have := h.clear names.length (by simp)
    rwa [List.take_left, List.getElem_concat_length rfl] at this

theorem substitute_none (t : Text) : (substitute [] t).bytes = t := by
  have hkept : substitute [] (t ++ []) = Marked.kept t ++ substitute [] [] :=
    substitute_kept fun _ _ => List.forall_mem_nil _
  rw [List.append_nil] at hkept
  rw [hkept, substitute_nil, List.append_nil, Marked.bytes_kept]

/-- **One after the other is at once.**  Where the words of a table are apart, replacing them entry
    by entry comes to the same as replacing them all at the same time. -/
theorem foldl_replaceAll_eq (hproper : Proper names) (h : Apart names t) :
    names.foldl (fun t n => replaceAll t n.1 n.2) t = (substitute names t).bytes := by
  induction names using List.reverseRecOn with
  | nil => exact (substitute_none t).symm
  | append_singleton names n ih =>
    obtain ⟨hapart, hclear⟩ := h.of_concat
    obtain ⟨hne, -⟩ := hproper n (List.mem_append_right _ (List.mem_singleton_self n))
    rw [List.foldl_append, ih (fun m hm => hproper m (List.mem_append_left _ hm)) hapart]
    exact (replaceAll_eq_replaceFrom hne ..).trans
      (replaceFrom_substitute hproper h.separate hclear)

/-! ## What is replaced -/

/-- **Every word is replaced.**  Where a word of the table stands in a text, its entry is put in,
    and what is before and behind it is replaced on its own. -/
theorem substitute_append (hproper : Proper names) {s u : Text} (hn : n ∈ names)
    (h : Separate names (s ++ n.1 ++ u)) :
    substitute names (s ++ n.1 ++ u) =
      substitute names s ++ Marked.put n.2 ++ substitute names u := by
  have hne : ∀ m ∈ names, m.1 ≠ [] := fun m hm => (hproper m hm).1
  have hat : ∀ s : Text, n.1 <+: (s ++ n.1 ++ u).drop s.length := fun s => by
    rw [List.append_assoc, List.drop_left]
    exact List.prefix_append ..
  have hlt : ∀ s : Text, s.length < (s ++ n.1 ++ u).length := fun s => by
    have := List.length_pos_iff.2 (hne n hn)
    simp only [List.length_append]
    omega
  induction s using hits_induction hne with
  | nil =>
    rw [List.nil_append] at h
    rw [List.nil_append, substitute_hit h hn (hne n hn) (List.prefix_append ..), List.drop_left]
    rfl
  | hit s m hm hms ih =>
    have hmt : m.1 <+: s ++ n.1 ++ u := by
      rw [List.append_assoc]
      exact hms.trans (List.prefix_append ..)
    have hdrop : (s ++ n.1 ++ u).drop m.1.length = s.drop m.1.length ++ n.1 ++ u := by
      rw [List.append_assoc, List.drop_append_of_le_length hms.length_le, List.append_assoc]
    rw [substitute_hit h hm (hne m hm) hmt, hdrop, ih (hdrop ▸ h.drop m.1.length),
      substitute_hit h.of_append.of_append hm (hne m hm) hms]
    simp only [List.append_assoc]
  | miss b s hno ih =>
    -- A word at the beginning would end before the word that is looked at.
    have hunfound : ∀ m ∈ names, ¬ m.1 <+: b :: (s ++ n.1 ++ u) := by
      intro m hm hmt
      have hle := h.length_le hm hn hmt (Nat.succ_ne_zero _) (hlt (b :: s)) (hat (b :: s))
      rw [← List.cons_append, ← List.cons_append, List.append_assoc] at hmt
      exact hno m hm (List.prefix_of_prefix_length_le hmt (List.prefix_append ..) hle)
    rw [substitute_cons hno]
    exact (substitute_cons hunfound).trans (congrArg ((b, false) :: ·) (ih (h.drop 1)))

/-- The order of the entries does not matter. -/
theorem substitute_perm (hproper : Proper names) {names' : Dict Text} (hperm : names'.Perm names)
    (h : Separate names t) : substitute names' t = substitute names t := by
  have hne : ∀ m ∈ names, m.1 ≠ [] := fun m hm => (hproper m hm).1
  have h' : Separate names' t := h.mono hperm.subset
  induction t using hits_induction hne with
  | nil => rfl
  | hit t m hm hmt ih =>
    rw [substitute_hit h hm (hne m hm) hmt,
      substitute_hit h' (hperm.mem_iff.2 hm) (hne m hm) hmt, ih (h.drop _) (h'.drop _)]
  | miss b t hno ih =>
    rw [substitute_cons hno, substitute_cons fun m hm => hno m (hperm.mem_iff.1 hm),
      ih (h.drop 1) (h'.drop 1)]

end Reasoning.Text
