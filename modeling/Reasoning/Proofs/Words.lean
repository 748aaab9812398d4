/-
  Sentences of plain words.

  A sentence that is written with plain words and single spaces is what every function on
  texts takes it for: it has no connective symbol and no space around it, it falls into the
  words that it is written with, and it is its own canonical form.

  * `Text.IsWord`, `Text.Plain`: words, and words in small letters;
  * `Text.tokens_join`, `Text.canonical_join`, `Connective.normalize_join`, `Text.trim_join`:
    sentences of such words;
  * `rejection?_plain`: a single plain word is a statement that is accepted.
-/
import Reasoning.Connective
import Reasoning.Proofs.Pieces
import Reasoning.Proofs.Sanity

namespace Reasoning

namespace Text

/-- A word: word bytes, and at least one of them. -/
structure IsWord (w : Text) : Prop where
  ne_nil : w ≠ []
  word : ∀ b ∈ w, Byte.isWord b

instance (w : Text) : Decidable w.IsWord :=
  decidable_of_iff (w.isEmpty = false ∧ w.all Byte.isWord)
    ⟨fun ⟨h₁, h₂⟩ => ⟨List.isEmpty_eq_false_iff.1 h₁, List.all_eq_true.1 h₂⟩,
      fun ⟨h₁, h₂⟩ => ⟨List.isEmpty_eq_false_iff.2 h₁, List.all_eq_true.2 h₂⟩⟩

/-- A word in small letters, with a letter or a digit among its bytes. -/
structure Plain (w : Text) : Prop where
  word : ∀ b ∈ w, Byte.isWord b
  small : lower w = w
  alnum : w.hasAlnum

instance (w : Text) : Decidable w.Plain :=
  decidable_of_iff (w.all Byte.isWord ∧ lower w = w ∧ w.hasAlnum)
    ⟨fun ⟨h₁, h₂, h₃⟩ => ⟨List.all_eq_true.1 h₁, h₂, h₃⟩,
      fun ⟨h₁, h₂, h₃⟩ => ⟨List.all_eq_true.2 h₁, h₂, h₃⟩⟩

variable {s t w : Text} {ts ws : List Text} {b : UInt8}

theorem Plain.ne_nil (h : w.Plain) : w ≠ [] := by
  rintro rfl
  exact absurd h.alnum (by decide)

theorem Plain.isWord (h : w.Plain) : w.IsWord := ⟨h.ne_nil, h.word⟩

/-! ## Bytes of a sentence -/

theorem join_space (s t : Text) (ts : List Text) :
    join " " (s :: t :: ts) = s ++ 32 :: join " " (t :: ts) := by
  rw [join_cons_cons, List.append_assoc]
  rfl

theorem mem_join (hb : b ∈ join s ts) : b ∈ s ∨ ∃ t ∈ ts, b ∈ t := by
  induction ts with
  | nil => cases hb
  | cons t ts ih =>
    cases ts with
    | nil => exact .inr ⟨t, List.mem_cons_self .., hb⟩
    | cons u ts =>
      rw [join_cons_cons, List.mem_append, List.mem_append] at hb
      rcases hb with (hb | hb) | hb
      · exact .inr ⟨t, List.mem_cons_self .., hb⟩
      · exact .inl hb
      · exact (ih hb).imp_right fun ⟨v, hv, hbv⟩ => ⟨v, List.mem_cons_of_mem _ hv, hbv⟩

/-- A joined text begins with its first part. -/
theorem head?_join (h : t ≠ []) : (join s (t :: ts)).head? = t.head? := by
  cases ts with
  | nil => rfl
  | cons u ts =>
    rw [join_cons_cons, List.append_assoc, List.head?_append_of_ne_nil _ h]

/-- A joined text ends with a byte of one of its parts. -/
theorem mem_of_mem_getLast?_join (h : ∀ t ∈ ts, t ≠ []) (hb : b ∈ (join s ts).getLast?) :
    ∃ t ∈ ts, b ∈ t := by
  induction ts with
  | nil => cases hb
  | cons t ts ih =>
    obtain ⟨-, hts⟩ := List.forall_mem_cons.1 h
    cases ts with
    | nil => exact ⟨t, List.mem_cons_self .., List.mem_of_getLast? hb⟩
    | cons u ts =>
      have hne : join s (u :: ts) ≠ [] := fun hnil => by
        have hhead : (join s (u :: ts)).head? = u.head? :=
          head?_join (hts u (List.mem_cons_self ..))
        rw [hnil, List.head?_nil, eq_comm, List.head?_eq_none_iff] at hhead
        exact hts u (List.mem_cons_self ..) hhead
      rw [join_cons_cons, List.getLast?_append_of_ne_nil _ hne] at hb
      obtain ⟨v, hv, hbv⟩ := ih hts hb
      exact ⟨v, List.mem_cons_of_mem _ hv, hbv⟩

theorem isSpace_of_isWord : ∀ {b}, Byte.isWord b → Byte.isSpace b = false := by
  decide +kernel

theorem lt_of_isWord : ∀ {b}, Byte.isWord b → b < 128 := by
  decide +kernel

/-- A byte of a sentence is a space or belongs to a word. -/
theorem eq_or_isWord_of_mem_join (h : ∀ w ∈ ws, w.Plain) (hb : b ∈ join " " ws) :
    b = 32 ∨ Byte.isWord b := by
  rcases mem_join hb with hb | ⟨w, hw, hb⟩
  · exact .inl (List.mem_singleton.1 hb)
  · exact .inr ((h w hw).word b hb)

/-! ## Words of a sentence -/

theorem isWord_of_mem_tokens (h : w ∈ tokens t) : w.IsWord :=
  ⟨ne_nil_of_mem_runs h, mem_of_mem_runs h⟩

/-- Words with spaces between them are read as these words. -/
theorem tokens_join (h : ∀ w ∈ ws, w.IsWord) : tokens (join " " ws) = ws := by
  induction ws with
  | nil => rfl
  | cons w ws ih =>
    obtain ⟨hw, hws⟩ := List.forall_mem_cons.1 h
    have hword := runs_word hw.ne_nil hw.word
    cases ws with
    | nil => exact hword
    | cons v ws =>
      rw [join_space, tokens, runs_append_cons (by decide), hword, List.singleton_append, ← tokens,
        ih hws]

theorem lower_join (h : ∀ w ∈ ws, w.Plain) : lower (join " " ws) = join " " ws := by
  have hsmall : ∀ {t : Text}, lower t = t ↔ ∀ b ∈ t, Byte.lower b = b := fun {t} => by
    rw [lower, ← List.map_inj_left, List.map_id']
  refine hsmall.2 fun b hb => ?_
  rcases mem_join hb with hb | ⟨w, hw, hb⟩
  · rw [List.mem_singleton.1 hb]
    rfl
  · exact hsmall.1 (h w hw).small b hb

theorem words_join (h : ∀ w ∈ ws, w.Plain) : words (join " " ws) = ws := by
  rw [words, lower_join h, ← tokens, tokens_join fun w hw => (h w hw).isWord]

theorem canonical_join (h : ∀ w ∈ ws, w.Plain) : canonical (join " " ws) = join " " ws := by
  rw [canonical, words_join h]

/-- Sentences with different words are different. -/
theorem join_inj {vs : List Text} (hvs : ∀ w ∈ vs, w.Plain) (hws : ∀ w ∈ ws, w.Plain) :
    join " " vs = join " " ws ↔ vs = ws :=
  ⟨fun h => by
    rw [← tokens_join fun w hw => (hvs w hw).isWord, h, tokens_join fun w hw => (hws w hw).isWord],
    congrArg _⟩

theorem hasAlnum_join (hne : ws ≠ []) (h : ∀ w ∈ ws, w.Plain) : hasAlnum (join " " ws) := by
  obtain ⟨w, rest, rfl⟩ := List.exists_cons_of_ne_nil hne
  have hw := (h w (List.mem_cons_self ..)).alnum
  cases rest with
  | nil => exact hw
  | cons v rest =>
    unfold hasAlnum at hw
    rw [join_cons_cons, List.append_assoc, hasAlnum, List.any_append, hw, Bool.true_or]

/-! ## Space around a sentence -/

theorem dropWhile_eq_self {p : UInt8 → Bool} (h : ∀ b ∈ t.head?, p b = false) :
    t.dropWhile p = t := by
  cases t with
  | nil => rfl
  | cons b t => exact List.dropWhile_cons_of_neg (by simp [h b rfl])

/-- Nothing is cut where no space stands at the ends. -/
theorem trim_eq_self (hfirst : ∀ b ∈ t.head?, Byte.isSpace b = false)
    (hlast : ∀ b ∈ t.getLast?, Byte.isSpace b = false) : trim t = t := by
  rw [← List.head?_reverse] at hlast
  rw [trim, dropWhile_eq_self hfirst, dropWhile_eq_self hlast, List.reverse_reverse]

theorem trim_join (h : ∀ w ∈ ws, w.Plain) : trim (join " " ws) = join " " ws := by
  refine trim_eq_self (fun b hb => ?_) fun b hb => ?_
  · cases ws with
    | nil => cases hb
    | cons w ws =>
      have hw := h w (List.mem_cons_self ..)
      rw [head?_join hw.ne_nil] at hb
      exact isSpace_of_isWord (hw.word b (List.mem_of_mem_head? hb))
  · obtain ⟨w, hw, hbw⟩ := mem_of_mem_getLast?_join (fun w hw => (h w hw).ne_nil) hb
    exact isSpace_of_isWord ((h w hw).word b hbw)

/-! ## Symbols -/

/-- Nothing is replaced where the replaced text cannot begin. -/
theorem replaceAll_eq_self {old new : Text} (h : ∀ a ∈ old.head?, a ∉ t) :
    replaceAll t old new = t := by
  cases old with
  | nil => rfl
  | cons a old =>
    exact replaceAll_of_not_infix new fun hoccurs =>
      h a rfl (hoccurs.subset (List.mem_cons_self ..))

end Text

/-- Symbols begin with a byte beyond ASCII. -/
theorem Connective.normalize_eq_self {t : Text} (h : ∀ b ∈ t, b < 128) : normalize t = t := by
  have hsymbols : ∀ s ∈ symbols, ∀ a ∈ s.1.head?, ¬ a < 128 := by decide +kernel
  unfold normalize
  refine List.foldlRecOn symbols _ (motive := (· = t)) rfl fun u hu s hs => ?_
  rw [hu]
  exact Text.replaceAll_eq_self fun a ha hmem => hsymbols s hs a ha (h a hmem)

theorem Connective.normalize_join {ws : List Text} (h : ∀ w ∈ ws, w.Plain) :
    normalize (Text.join " " ws) = Text.join " " ws := by
  refine normalize_eq_self fun b hb => ?_
  rcases Text.eq_or_isWord_of_mem_join h hb with rfl | hb
  · decide
  · exact Text.lt_of_isWord hb

/-! ## Statements of one word -/

/-- A plain word is refused only if it is a marker of contradictions, or if its denial is
    known. -/
theorem rejection?_plain {w : Text} (hw : w.Plain)
    (hmarker : w ∉ Text.ofStrings ["contradiction", "paradox"]) {ps : List Proposition}
    (hps : ∀ p ∈ ps, ∃ ws, (∀ v ∈ ws, v.Plain) ∧ p.text = Text.join " " ws ∧ ws.length ≠ 2) :
    rejection? w ps = none := by
  have hjoin : ∀ v ∈ [w], v.Plain := fun v hv => by rwa [List.mem_singleton.1 hv]
  have hwords : w.words = [w] := Text.words_join hjoin
  have hcanonical : w.canonical = w := Text.canonical_join hjoin
  have hnot : ∀ v ∈ [Text.ofString "not", w], v.Plain :=
    List.forall_mem_cons.2 ⟨by decide +kernel, hjoin⟩
  -- A denial has two words.
  have hdenial : ∀ p ∈ ps, areNegations w p.text.canonical = false := by
    intro p hp
    obtain ⟨ws, hws, htext, hlength⟩ := hps p hp
    rw [htext, Text.canonical_join hws]
    unfold areNegations
    rw [Bool.or_eq_false_iff, beq_eq_false_iff_ne, beq_eq_false_iff_ne]
    constructor
    · intro he
      have hspace : (32 : UInt8) ∈ w := by
        rw [he]
        exact List.mem_append_left _ (by decide)
      exact absurd (hw.word 32 hspace) (by decide)
    · intro he
      have := (Text.join_inj hws hnot).1 he
      exact hlength (congrArg List.length this)
  unfold rejection?
  dsimp only
  rw [hcanonical, hwords, if_neg, if_neg, if_neg]
  · rw [List.find?_eq_none.2 fun p hp => by rw [hdenial p hp]; exact Bool.false_ne_true]
    rfl
  · intro h
    rw [Bool.and_eq_true, List.contains_iff_mem, List.contains_iff_mem, List.mem_singleton,
      List.mem_singleton] at h
    exact absurd (h.1.trans h.2.symm) (by decide)
  · intro h
    obtain ⟨v, hv, hmem⟩ := List.any_eq_true.1 h
    rw [List.contains_iff_mem, List.mem_singleton] at hmem
    exact hmarker (hmem ▸ hv)
  · rw [List.isEmpty_iff]
    exact hw.ne_nil

end Reasoning
