/-
  Texts of whole symbols.

  * `Text.Valid`: a text is a sequence of UTF-8 symbols, `Text.valid_iff`: what `isUtf8` checks;
  * `Text.Valid.cut`: a valid text falls into valid texts in front of every byte that does not
    continue a symbol;
  * what cutting, searching and replacing at ASCII bytes does to valid texts.
-/
import Mathlib.Data.List.TakeWhile
import Reasoning.Proofs.Pieces
import Reasoning.Proofs.Printing
import Reasoning.Proofs.Text
import Reasoning.Text.Sentence
import Reasoning.Text.Utf8

namespace Reasoning

/-- What is said of all bytes is looked at byte by byte. -/
def decidableForallByte (P : UInt8 → Prop) [DecidablePred P] : Decidable (∀ b, P b) :=
  decidable_of_iff (∀ n ∈ List.range 256, P (UInt8.ofNat n))
    ⟨fun h b => by simpa using h b.toNat (List.mem_range.2 b.toNat_lt), fun h n _ => h _⟩

/-! ## Symbols -/

namespace Utf8

/-- A symbol of one to four bytes. -/
inductive Symbol : Text → Prop
  | one {a : UInt8} : a < 0x80 → Symbol [a]
  | two {a b : UInt8} : 0xC2 ≤ a → a ≤ 0xDF → isTail b = true → Symbol [a, b]
  | three {a b c : UInt8} : 0xE0 ≤ a → a ≤ 0xEF → isSecond a b = true → isTail c = true →
      Symbol [a, b, c]
  | four {a b c d : UInt8} : 0xF0 ≤ a → a ≤ 0xF4 → isSecond a b = true → isTail c = true →
      isTail d = true → Symbol [a, b, c, d]

theorem isTail_of_isSecond {a b : UInt8} (h : isSecond a b = true) : isTail b = true := by
  unfold isSecond isTail at *
  split_ifs at h <;>
    simp only [Bool.and_eq_true, decide_eq_true_eq, UInt8.le_iff_toNat_le] at h ⊢ <;>
    simp at h ⊢ <;> omega

theorem isTail_eq_false_of_lt {b : UInt8} (h : b < 0x80) : isTail b = false := by
  have h : b.toNat < 128 := UInt8.lt_iff_toNat_lt.1 h
  simp [isTail, UInt8.le_iff_toNat_le]
  omega

theorem isTail_eq_false_of_le {b : UInt8} (h : 0xC2 ≤ b) : isTail b = false := by
  have h : 194 ≤ b.toNat := UInt8.le_iff_toNat_le.1 h
  simp [isTail, UInt8.le_iff_toNat_le]
  omega

/-- A symbol is a byte that continues none and bytes that do. -/
theorem Symbol.bytes {s : Text} (h : Symbol s) :
    ∃ a t, s = a :: t ∧ isTail a = false ∧ ∀ b ∈ t, isTail b = true := by
  have hlead {a b : UInt8} (ha : b ≤ a) (hb : 0xC2 ≤ b) : isTail a = false :=
    isTail_eq_false_of_le (UInt8.le_trans hb ha)
  cases h with
  | one ha => exact ⟨_, _, rfl, isTail_eq_false_of_lt ha, List.forall_mem_nil _⟩
  | two ha _ hb => exact ⟨_, _, rfl, isTail_eq_false_of_le ha, by simp [hb]⟩
  | three ha _ hb hc => exact ⟨_, _, rfl, hlead ha (by decide), by simp [isTail_of_isSecond hb, hc]⟩
  | four ha _ hb hc hd =>
    exact ⟨_, _, rfl, hlead ha (by decide), by simp [isTail_of_isSecond hb, hc, hd]⟩

theorem size?_append {s : Text} (h : Symbol s) (t : Text) : size? (s ++ t) = some s.length := by
  cases h with
  | one ha => simp [size?, ha]
  | two ha ha' hb =>
    have hno : ¬ _ < (0x80 : UInt8) := UInt8.not_lt.2 (UInt8.le_trans (by decide) ha)
    simp [size?, hno, ha, ha', hb]
  | @three a b c ha ha' hb hc =>
    have hno : ¬ a < (0x80 : UInt8) := UInt8.not_lt.2 (UInt8.le_trans (by decide) ha)
    have hno' : ¬ a ≤ (0xDF : UInt8) := UInt8.not_le.2 (UInt8.lt_of_lt_of_le (by decide) ha)
    simp [size?, hno, hno', ha, ha', hb, hc]
  | @four a b c d ha ha' hb hc hd =>
    have hno : ¬ a < (0x80 : UInt8) := UInt8.not_lt.2 (UInt8.le_trans (by decide) ha)
    have hno' : ¬ a ≤ (0xDF : UInt8) := UInt8.not_le.2 (UInt8.lt_of_lt_of_le (by decide) ha)
    have hno'' : ¬ a ≤ (0xEF : UInt8) := UInt8.not_le.2 (UInt8.lt_of_lt_of_le (by decide) ha)
    simp [size?, hno, hno', hno'', ha, ha', hb, hc, hd]

/-- The size is that of the symbol in front. -/
theorem exists_symbol {t : Text} {n : Nat} (h : size? t = some n) :
    ∃ s u, t = s ++ u ∧ Symbol s ∧ n = s.length := by
  rcases t with _ | ⟨a, t⟩
  · cases h
  unfold size? at h
  dsimp only at h
  split at h
  next h1 =>
    cases h
    exact ⟨[a], t, rfl, .one h1, rfl⟩
  rcases t with _ | ⟨b, t⟩
  · cases h
  dsimp only at h
  split at h
  next h2 =>
    rw [Bool.and_eq_true, decide_eq_true_eq, decide_eq_true_eq] at h2
    split at h
    next hb =>
      cases h
      exact ⟨[a, b], t, rfl, .two h2.1 h2.2 hb, rfl⟩
    · cases h
  split at h
  · cases h
  next hb =>
  replace hb : isSecond a b = true := by simpa using hb
  rcases t with _ | ⟨c, t⟩
  · cases h
  dsimp only at h
  split at h
  next h3 =>
    rw [Bool.and_eq_true, decide_eq_true_eq, decide_eq_true_eq] at h3
    split at h
    next hc =>
      cases h
      exact ⟨[a, b, c], t, rfl, .three h3.1 h3.2 hb hc, rfl⟩
    · cases h
  rcases t with _ | ⟨d, t⟩
  · cases h
  dsimp only at h
  split at h
  next h4 =>
    cases h
    simp only [Bool.and_eq_true, decide_eq_true_eq] at h4
    exact ⟨[a, b, c, d], t, rfl, .four h4.1.1.1 h4.1.1.2 hb h4.1.2 h4.2, rfl⟩
  · cases h

theorem Symbol.ne_nil {s : Text} (h : Symbol s) : s ≠ [] := by
  obtain ⟨a, t, rfl, -, -⟩ := h.bytes
  exact List.cons_ne_nil _ _

/-! ## Code points -/

theorem toNat_toUInt8 {n : Nat} (h : n < 256) : n.toUInt8.toNat = n :=
  UInt8.toNat_ofNat_of_lt' h

theorem isTail_toUInt8 {n : Nat} (h : n < 64) : isTail (0x80 + n).toUInt8 = true := by
  simp [isTail, UInt8.le_iff_toNat_le]
  omega

/-- The bytes of a code point that is no surrogate are a symbol. -/
theorem symbol_encode {n : Nat} (h : n.isValidChar) : Symbol (encode n) := by
  have h : n < 0xD800 ∨ 0xDFFF < n ∧ n < 0x110000 := h
  unfold encode
  split_ifs with h1 h2 h3
  · refine .one (UInt8.lt_iff_toNat_lt.2 ?_)
    rw [toNat_toUInt8 (by omega)]
    exact h1
  · have hlead : (0xC0 + n / 0x40).toUInt8.toNat = 192 + n / 64 := toNat_toUInt8 (by omega)
    exact .two (UInt8.le_iff_toNat_le.2 (by rw [hlead]; simp; omega))
      (UInt8.le_iff_toNat_le.2 (by rw [hlead]; simp; omega)) (isTail_toUInt8 (by omega))
  · have hlead : (0xE0 + n / 0x1000).toUInt8.toNat = 224 + n / 4096 := toNat_toUInt8 (by omega)
    have hsecond : (0x80 + n / 0x40 % 0x40).toUInt8.toNat = 128 + n / 64 % 64 :=
      toNat_toUInt8 (by omega)
    refine .three (UInt8.le_iff_toNat_le.2 (by rw [hlead]; simp))
      (UInt8.le_iff_toNat_le.2 (by rw [hlead]; simp; omega)) ?_ (isTail_toUInt8 (by omega))
    -- The second byte of a small code point is large, and that of one below the surrogates small.
    simp only [isSecond, isTail, beq_iff_eq, ← UInt8.toNat_inj, UInt8.le_iff_toNat_le, hlead,
      hsecond]
    simp
    split_ifs <;> omega
  · have hlead : (0xF0 + n / 0x40000).toUInt8.toNat = 240 + n / 262144 := toNat_toUInt8 (by omega)
    have hsecond : (0x80 + n / 0x1000 % 0x40).toUInt8.toNat = 128 + n / 4096 % 64 :=
      toNat_toUInt8 (by omega)
    refine .four (UInt8.le_iff_toNat_le.2 (by rw [hlead]; simp))
      (UInt8.le_iff_toNat_le.2 (by rw [hlead]; simp; omega)) ?_ (isTail_toUInt8 (by omega))
      (isTail_toUInt8 (by omega))
    -- The second byte of a small code point is large, and that of a large one small.
    simp only [isSecond, isTail, beq_iff_eq, ← UInt8.toNat_inj, UInt8.le_iff_toNat_le, hlead,
      hsecond]
    simp
    split_ifs <;> omega

/-- The bytes of a character are those of its code point. -/
theorem utf8EncodeChar_eq (c : Char) : String.utf8EncodeChar c = encode c.val.toNat := by
  have h : c.val.toNat < 0xD800 ∨ 0xDFFF < c.val.toNat ∧ c.val.toNat < 0x110000 := c.valid
  have hbyte {m n : Nat} (h : m = n) : UInt8.ofNat m = n.toUInt8 := congrArg UInt8.ofNat h
  unfold String.utf8EncodeChar encode
  dsimp only
  split_ifs
  any_goals omega
  · rfl
  · simp only [List.cons.injEq, and_true]
    exact ⟨hbyte (by omega), hbyte (by omega)⟩
  · simp only [List.cons.injEq, and_true]
    exact ⟨hbyte (by omega), hbyte (by omega), hbyte (by omega)⟩
  · simp only [List.cons.injEq, and_true]
    exact ⟨hbyte (by omega), hbyte (by omega), hbyte (by omega), hbyte (by omega)⟩

end Utf8

/-! ## Valid texts -/

namespace Text

open Utf8

/-- A sequence of symbols. -/
inductive Valid : Text → Prop
  | nil : Valid []
  | cons {s t} : Symbol s → Valid t → Valid (s ++ t)

attribute [simp] Valid.nil

variable {s t u : Text}

theorem isUtf8From_eq (k : Nat) (t : Text) : isUtf8From k t = isUtf8 (t.drop k) := by
  induction t generalizing k with
  | nil => cases k <;> rfl
  | cons b t ih =>
    cases k with
    | zero => rfl
    | succ k => rw [List.drop_succ_cons, ← ih, isUtf8From]

theorem isUtf8_append_of_symbol (h : Symbol s) (t : Text) : isUtf8 (s ++ t) = t.isUtf8 := by
  have hsize := size?_append h t
  obtain ⟨a, u, rfl, -, -⟩ := h.bytes
  rw [List.cons_append] at hsize ⊢
  rw [isUtf8, isUtf8From, hsize]
  dsimp only
  rw [isUtf8From_eq, List.length_cons, Nat.add_sub_cancel, List.drop_left]

/-- A text is valid if it is a sequence of symbols. -/
theorem valid_iff : t.Valid ↔ t.isUtf8 = true := by
  constructor
  · intro h
    induction h with
    | nil => rfl
    | cons hs _ ih => rw [isUtf8_append_of_symbol hs, ih]
  · intro h
    induction hn : t.length using Nat.strong_induction_on generalizing t with
    | _ n ih =>
      subst hn
      cases t with
      | nil => exact .nil
      | cons b t =>
        cases hsize : size? (b :: t) with
        | none =>
          rw [isUtf8, isUtf8From, hsize] at h
          cases h
        | some n =>
          obtain ⟨s, u, he, hs, -⟩ := exists_symbol hsize
          rw [he] at h ⊢
          rw [isUtf8_append_of_symbol hs] at h
          refine .cons hs (ih u.length ?_ h rfl)
          rw [he, List.length_append]
          exact Nat.lt_add_of_pos_left (List.length_pos_iff.2 hs.ne_nil)

instance (t : Text) : Decidable t.Valid := decidable_of_iff _ valid_iff.symm

@[simp] theorem Valid.append_iff (h : s.Valid) : Valid (s ++ t) ↔ t.Valid := by
  induction h with
  | nil => rfl
  | cons hs _ ih => rw [List.append_assoc, valid_iff, isUtf8_append_of_symbol hs, ← valid_iff, ih]

theorem Valid.append (hs : s.Valid) (ht : t.Valid) : Valid (s ++ t) := hs.append_iff.2 ht

/-- The text is empty, or its first byte continues no symbol. -/
def Starts (t : Text) : Prop := ∀ b ∈ t.head?, isTail b = false

theorem starts_nil : Starts [] := fun b hb => absurd hb (Option.not_mem_none b)

theorem Valid.starts (h : t.Valid) : t.Starts := by
  cases h with
  | nil => exact starts_nil
  | cons hs _ =>
    obtain ⟨a, u, rfl, ha, -⟩ := hs.bytes
    rintro b hb
    cases hb
    exact ha

/-- A valid text may be cut in front of every byte that does not continue a symbol. -/
theorem Valid.cut (h : Valid (s ++ t)) (ht : t.Starts) : s.Valid ∧ t.Valid := by
  generalize hst : s ++ t = st at h
  induction h generalizing s with
  | nil =>
    rw [List.append_eq_nil_iff] at hst
    rw [hst.1, hst.2]
    exact ⟨.nil, .nil⟩
  | @cons a u ha hu ih =>
    rcases List.append_eq_append_iff.1 hst with ⟨v, rfl, rfl⟩ | ⟨v, rfl, rfl⟩
    · -- The cut is at the end of the symbol or inside it.
      obtain ⟨b, w, hb, hhead, htail⟩ := ha.bytes
      cases v with
      | nil =>
        rw [List.append_nil] at ha
        exact ⟨by simpa using Valid.cons ha .nil, hu⟩
      | cons c v =>
        have hc := ht c rfl
        cases s with
        | nil => exact ⟨.nil, .cons ha hu⟩
        | cons d s =>
          rw [List.cons_append, List.cons.injEq] at hb
          have := htail c (by simp [← hb.2])
          rw [this] at hc
          cases hc
    · obtain ⟨hv, ht⟩ := ih rfl
      exact ⟨.cons ha hv, ht⟩

/-- All texts of the list are valid. -/
def AllValid (ts : List Text) : Prop := ∀ t ∈ ts, t.Valid

instance (ts : List Text) : Decidable (AllValid ts) :=
  inferInstanceAs (Decidable (∀ t ∈ ts, t.Valid))

section
variable {ts us : List Text}

@[simp] theorem allValid_nil : AllValid [] := List.forall_mem_nil _

@[simp] theorem allValid_cons : AllValid (t :: ts) ↔ t.Valid ∧ AllValid ts := List.forall_mem_cons

@[simp] theorem allValid_append : AllValid (ts ++ us) ↔ AllValid ts ∧ AllValid us :=
  List.forall_mem_append

theorem AllValid.of_subset (h : AllValid us) (hs : ts ⊆ us) : AllValid ts := fun t ht => h t (hs ht)

theorem allValid_map {α : Type} {as : List α} {f : α → Text} :
    AllValid (as.map f) ↔ ∀ a ∈ as, (f a).Valid := List.forall_mem_map

theorem allValid_flatMap {α : Type} {as : List α} {f : α → List Text} :
    AllValid (as.flatMap f) ↔ ∀ a ∈ as, AllValid (f a) := List.forall_mem_flatMap

theorem AllValid.flatten (h : AllValid ts) : Valid ts.flatten := by
  induction ts with
  | nil => exact .nil
  | cons t ts ih =>
    rw [allValid_cons] at h
    exact h.1.append (ih h.2)

theorem AllValid.join (h : AllValid ts) (hs : s.Valid) : (join s ts).Valid := by
  induction ts with
  | nil => exact .nil
  | cons t ts ih =>
    rw [allValid_cons] at h
    cases ts with
    | nil => exact h.1
    | cons u ts => exact (h.1.append hs).append (ih h.2)

end

/-! ## Cuts at ASCII bytes -/

theorem starts_cons {b : UInt8} (hb : b < 0x80) : Starts (b :: t) := by
  rintro c ⟨⟩
  exact isTail_eq_false_of_lt hb

theorem valid_cons {b : UInt8} (hb : b < 0x80) : Valid (b :: t) ↔ t.Valid :=
  Valid.append_iff (.cons (.one hb) .nil)

theorem valid_of_ascii (h : ∀ b ∈ t, b < 0x80) : t.Valid := by
  induction t with
  | nil => exact .nil
  | cons b t ih =>
    rw [List.forall_mem_cons] at h
    exact (valid_cons h.1).2 (ih h.2)

theorem starts_of_ascii (h : ∀ b ∈ t, b < 0x80) : t.Starts := fun b hb =>
  isTail_eq_false_of_lt (h b (List.mem_of_mem_head? hb))

/-- A class of bytes that are all ASCII. -/
def Ascii (p : UInt8 → Bool) : Prop := ∀ b, p b = true → b < 0x80

instance (p : UInt8 → Bool) : Decidable (Ascii p) :=
  decidableForallByte fun b => p b = true → b < 0x80

section
variable {p : UInt8 → Bool}

theorem Valid.dropWhile (h : t.Valid) (hp : Ascii p) : Valid (t.dropWhile p) := by
  induction t with
  | nil => exact .nil
  | cons b t ih =>
    rw [List.dropWhile_cons]
    split
    · rename_i hb
      exact ih ((valid_cons (hp b hb)).1 h)
    · exact h

/-- A text is cut in front of the first byte that is not in a class of all bytes but ASCII. -/
theorem Valid.takeWhile (h : t.Valid) (hp : Ascii fun b => !p b) :
    Valid (t.takeWhile p) ∧ Valid (t.dropWhile p) := by
  rw [← List.takeWhile_append_dropWhile (p := p) (l := t)] at h
  refine h.cut fun b hb => isTail_eq_false_of_lt (hp b ?_)
  have := List.head?_dropWhile_not p t
  rw [Option.mem_def] at hb
  rw [hb] at this
  simpa using this

theorem Valid.splitWhere (h : t.Valid) (hp : Ascii p) : AllValid (splitWhere p t) := by
  suffices ∀ s, Valid (s ++ t) → ∃ q qs, Text.splitWhere p t = q :: qs ∧ Valid (s ++ q) ∧
      ∀ r ∈ qs, Valid r by
    obtain ⟨q, qs, he, hq, hqs⟩ := this [] h
    rw [he]
    exact List.forall_mem_cons.2 ⟨hq, hqs⟩
  clear h
  induction t with
  | nil => exact fun s hs => ⟨[], [], rfl, hs, List.forall_mem_nil _⟩
  | cons b t ih =>
    intro s hs
    rw [Text.splitWhere]
    split
    · rename_i hb
      obtain ⟨hs, hbt⟩ := hs.cut (starts_cons (hp b hb))
      obtain ⟨q, qs, he, hq, hqs⟩ := ih [] ((valid_cons (hp b hb)).1 hbt)
      exact ⟨[], _, rfl, by rwa [List.append_nil], he ▸ List.forall_mem_cons.2 ⟨hq, hqs⟩⟩
    · obtain ⟨q, qs, he, hq, hqs⟩ := ih (s ++ [b]) (by rwa [List.append_assoc])
      rw [he]
      exact ⟨b :: q, qs, rfl, by simpa using hq, hqs⟩

end

theorem ascii_isSpace : Ascii Byte.isSpace := by decide +kernel

theorem ascii_isWord : Ascii Byte.isWord := by decide +kernel

theorem ascii_isDigit : Ascii Byte.isDigit := by decide +kernel

theorem ascii_isAlpha : Ascii Byte.isAlpha := by decide +kernel

/-! ## Words and lines -/

theorem lower_lt {b : UInt8} (h : b < 0x80) : Byte.lower b < 0x80 := by
  have : ∀ n ∈ List.range 128, Byte.lower (UInt8.ofNat n) < 0x80 := by decide +kernel
  simpa using this b.toNat (List.mem_range.2 (UInt8.lt_iff_toNat_lt.1 h))

theorem lower_eq_self {b : UInt8} (h : ¬ b < 0x80) : Byte.lower b = b :=
  if_neg fun hb => h (ascii_isAlpha b (by simp [Byte.isAlpha, hb]))

theorem isTail_lower (b : UInt8) : isTail (Byte.lower b) = isTail b := by
  by_cases h : b < 0x80
  · rw [isTail_eq_false_of_lt h, isTail_eq_false_of_lt (lower_lt h)]
  · rw [lower_eq_self h]

theorem not_lt_of_le_of_lt {a b : UInt8} (h : b ≤ a) (hb : 0x80 ≤ b) : ¬ a < 0x80 :=
  UInt8.not_lt.2 (UInt8.le_trans hb h)

theorem not_lt_of_isTail {b : UInt8} (h : isTail b = true) : ¬ b < 0x80 := fun hb => by
  rw [isTail_eq_false_of_lt hb] at h
  cases h

theorem symbol_lower (h : Symbol s) : Symbol s.lower := by
  cases h with
  | one ha => exact .one (lower_lt ha)
  | two ha ha' hb =>
    rw [lower, List.map_cons, List.map_cons, lower_eq_self (not_lt_of_le_of_lt ha (by decide)),
      lower_eq_self (not_lt_of_isTail hb)]
    exact .two ha ha' hb
  | three ha ha' hb hc =>
    rw [lower, List.map_cons, List.map_cons, List.map_cons,
      lower_eq_self (not_lt_of_le_of_lt ha (by decide)),
      lower_eq_self (not_lt_of_isTail (isTail_of_isSecond hb)), lower_eq_self (not_lt_of_isTail hc)]
    exact .three ha ha' hb hc
  | four ha ha' hb hc hd =>
    rw [lower, List.map_cons, List.map_cons, List.map_cons, List.map_cons,
      lower_eq_self (not_lt_of_le_of_lt ha (by decide)),
      lower_eq_self (not_lt_of_isTail (isTail_of_isSecond hb)), lower_eq_self (not_lt_of_isTail hc),
      lower_eq_self (not_lt_of_isTail hd)]
    exact .four ha ha' hb hc hd

theorem Valid.lower (h : t.Valid) : t.lower.Valid := by
  induction h with
  | nil => exact .nil
  | cons hs _ ih =>
    rw [Text.lower, List.map_append]
    exact .cons (symbol_lower hs) ih

theorem Valid.trim (h : t.Valid) : t.trim.Valid := by
  obtain ⟨s, u, he, hs, hu⟩ := exists_trim t
  rw [he, List.append_assoc] at h
  have hs : ∀ b ∈ s, b < 0x80 := fun b hb => ascii_isSpace b (hs b hb)
  have hu : ∀ b ∈ u, b < 0x80 := fun b hb => ascii_isSpace b (hu b hb)
  exact (((valid_of_ascii hs).append_iff.1 h).cut (starts_of_ascii hu)).1

theorem allValid_tokens (t : Text) : AllValid t.tokens := fun _ hw =>
  valid_of_ascii fun b hb => ascii_isWord b (mem_of_mem_runs hw b hb)

@[simp] theorem valid_ofString (s : String) : (ofString s).Valid := by
  rw [← String.ofList_toList (s := s), ofString_ofList]
  refine AllValid.flatten (allValid_map.2 fun c _ => ?_)
  rw [utf8EncodeChar_eq, ← List.append_nil (encode _)]
  exact .cons (symbol_encode c.valid) .nil

theorem allValid_ofStrings (ss : List String) : AllValid (ofStrings ss) :=
  allValid_map.2 fun s _ => valid_ofString s

@[simp] theorem valid_ofNat (n : Nat) : (ofNat n).Valid := valid_ofString _

theorem ascii_ofNat (n : Nat) : ∀ b ∈ ofNat n, b < 0x80 := fun _ hb =>
  ascii_isDigit _ (isDigit_of_mem_ofNat hb)

/-! ## Searching and replacing -/

/-- A text is cut in front of a phrase that begins with an ASCII byte, whatever the case. -/
theorem Valid.take_of_find? (h : t.Valid) {b : UInt8} (hb : b < 0x80) {n : Nat}
    (hn : t.lower.find? (b :: s) = some n) : Valid (t.take n) := by
  obtain ⟨u, hu⟩ := isPrefixOf_drop_of_find? hn
  rw [Text.lower, ← List.map_drop] at hu
  rw [← List.take_append_drop n t] at h
  refine (h.cut fun c hc => ?_).1
  obtain ⟨v, hv⟩ : ∃ v, t.drop n = c :: v := List.head?_eq_some_iff.1 hc
  rw [hv, List.map_cons, List.cons_append, List.cons.injEq] at hu
  rw [← isTail_lower, ← hu.1]
  exact isTail_eq_false_of_lt hb

/-- Whole symbols that are replaced by whole symbols leave whole symbols around them. -/
theorem Valid.replaceAll {old new : Text} (h : t.Valid) (hold : old.Valid) (hnew : new.Valid) :
    (t.replaceAll old new).Valid := by
  unfold Text.replaceAll
  split
  · exact h
  · rename_i hne
    refine Replacing.run_keeps (P := Valid) (fun r s hnext hr => ?_) h
    obtain ⟨before, behind, htext, -, rfl⟩ := Replacing.exists_of_next? hne hnext
    rw [htext, List.append_assoc] at hr
    obtain ⟨hbefore, hrest⟩ := hr.cut fun c hc => hold.starts c <| by
      rwa [List.head?_append_of_ne_nil _ hne] at hc
    exact (hbefore.append hnew).append (hold.append_iff.1 hrest)

theorem splitOnPhraseFrom_eq (phrase : Text) (k : Nat) (t : Text) :
    splitOnPhraseFrom phrase k t = splitOnPhraseFrom phrase 0 (t.drop k) := by
  induction t generalizing k with
  | nil => cases k <;> rfl
  | cons b t ih =>
    cases k with
    | zero => rfl
    | succ k => rw [List.drop_succ_cons, ← ih, splitOnPhraseFrom]

theorem lt_of_lower_lt {b : UInt8} (h : Byte.lower b < 0x80) : b < 0x80 := by
  by_contra hb
  exact hb (lower_eq_self hb ▸ h)

/-- The pieces between occurrences of an ASCII phrase. -/
theorem Valid.splitOnPhrase {phrase : Text} (h : t.Valid) (hne : phrase ≠ [])
    (hphrase : ∀ b ∈ phrase, b < 0x80) : AllValid (t.splitOnPhrase phrase) := by
  suffices ∀ n s, t.length = n → Valid (s ++ t) → ∃ q qs, splitOnPhraseFrom phrase 0 t = q :: qs ∧
      Valid (s ++ q) ∧ ∀ r ∈ qs, Valid r by
    obtain ⟨q, qs, he, hq, hqs⟩ := this _ [] rfl h
    rw [Text.splitOnPhrase, he]
    exact List.forall_mem_cons.2 ⟨hq, hqs⟩
  clear h
  intro n
  induction n using Nat.strong_induction_on generalizing t with
  | _ n ih =>
    rintro s rfl hs
    cases t with
    | nil => exact ⟨[], [], rfl, hs, List.forall_mem_nil _⟩
    | cons b t =>
      rw [splitOnPhraseFrom]
      split
      · rename_i hhit
        have hpos := List.length_pos_iff.2 hne
        have hascii : ∀ c ∈ (b :: t).take phrase.length, c < 0x80 := by
          have hprefix := List.isPrefixOf_iff_prefix.1 hhit
          have he : phrase = Text.lower ((b :: t).take phrase.length) :=
            hprefix.eq_of_length_le (by
              rw [Text.lower, List.length_map]
              exact List.length_take_le ..)
          intro c hc
          exact lt_of_lower_lt (hphrase _ (he ▸ List.mem_map_of_mem hc))
        have hb : b ∈ (b :: t).take phrase.length := by
          rw [← Nat.sub_add_cancel hpos, List.take_succ_cons]
          exact List.mem_cons_self ..
        obtain ⟨hs, hrest⟩ := hs.cut (starts_cons (hascii b hb))
        rw [← List.take_append_drop phrase.length (b :: t)] at hrest
        have hskip : t.drop (phrase.length - 1) = (b :: t).drop phrase.length := by
          rw [← List.drop_succ_cons (a := b), Nat.sub_add_cancel hpos]
        obtain ⟨q, qs, he, hq, hqs⟩ := ih _ (by simp; omega) [] rfl
          ((valid_of_ascii hascii).append_iff.1 hrest)
        rw [splitOnPhraseFrom_eq, hskip, he]
        exact ⟨[], _, rfl, by rwa [List.append_nil], List.forall_mem_cons.2 ⟨hq, hqs⟩⟩
      · obtain ⟨q, qs, he, hq, hqs⟩ :=
          ih t.length (by simp) (s ++ [b]) rfl (by rwa [List.append_assoc])
        rw [he]
        exact ⟨b :: q, qs, rfl, by simpa using hq, hqs⟩

/-! ## Sentences -/

theorem lt_of_isBoundary {previous next : Option UInt8} {b : UInt8}
    (h : Sentence.isBoundary previous b next = true) : b < 0x80 := by
  unfold Sentence.isBoundary at h
  simp only [Bool.or_eq_true, Bool.and_eq_true, beq_iff_eq] at h
  rcases h with ((rfl | rfl) | rfl) | ⟨rfl, -⟩ <;> decide

theorem valid_fragments (previous : Option UInt8) (h : Valid (s ++ t)) :
    ∃ f fs, Sentence.fragments previous t = f :: fs ∧ Valid (s ++ f.text) ∧
      ∀ g ∈ fs, g.text.Valid := by
  induction t generalizing s previous with
  | nil => exact ⟨_, _, rfl, h, List.forall_mem_nil _⟩
  | cons b t ih =>
    rw [Sentence.fragments]
    split
    · rename_i hb
      have hb := lt_of_isBoundary hb
      obtain ⟨hs, hbt⟩ := h.cut (starts_cons hb)
      obtain ⟨f, fs, he, hf, hfs⟩ := ih (s := []) (some b) ((valid_cons hb).1 hbt)
      exact ⟨_, _, rfl, by rwa [List.append_nil], he ▸ List.forall_mem_cons.2 ⟨hf, hfs⟩⟩
    · obtain ⟨f, fs, he, hf, hfs⟩ := ih (s := s ++ [b]) (some b) (by rwa [List.append_assoc])
      rw [he]
      exact ⟨_, _, rfl, by simpa using hf, hfs⟩

theorem Valid.sentences (h : t.Valid) : ∀ s ∈ t.sentences, s.text.Valid := by
  intro s hs
  obtain ⟨f, hf, hs⟩ := List.mem_filterMap.1 hs
  have hvalid : f.text.Valid := by
    obtain ⟨g, gs, he, hg, hgs⟩ := valid_fragments (s := []) none h
    rw [he] at hf
    exact (List.forall_mem_cons.2 ⟨hg, hgs⟩ : ∀ g' ∈ g :: gs, g'.text.Valid) f hf
  unfold Sentence.ofFragment? at hs
  dsimp only at hs
  split at hs
  · cases hs
    exact hvalid.trim
  · cases hs

end Text

end Reasoning
