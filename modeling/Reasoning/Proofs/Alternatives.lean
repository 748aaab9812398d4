/-
  The choices of a question that names them in both forms.

  "Choose between option A or option B" is read twice: as a pair of names, and as two names behind
  the word "option".  The pair has that word in its names, so it gives other choices.

  * `Text.Identifier`, `Text.Phrase`: names of letters and digits, and texts with spaces between
    such names;
  * `Choice.search_between`: the pair of a text, with `Choice.Whole` for what its first name may be;
  * `Choice.allFrom_named_hit`, `Choice.allFrom_named_miss`: the names behind a word;
  * `Choice.ofName_of_phrase`: a phrase says nothing of a choice but its name;
  * `Choice.offered`, `Choice.ofInput_question`: all choices of the question.
-/
import Reasoning.Proofs.Matching
import Reasoning.Proofs.Recommendation
import Reasoning.Proofs.Sentence
import Reasoning.Proofs.Words

namespace Reasoning

/-! ## Phrases -/

namespace Text

/-- A name of letters and digits, and at least one of them. -/
structure Identifier (x : Text) : Prop where
  ne_nil : x ≠ []
  alnum : ∀ b ∈ x, Byte.isAlnum b

instance (x : Text) : Decidable x.Identifier :=
  decidable_of_iff (x.isEmpty = false ∧ x.all Byte.isAlnum)
    ⟨fun ⟨h₁, h₂⟩ => ⟨List.isEmpty_eq_false_iff.1 h₁, List.all_eq_true.1 h₂⟩,
      fun ⟨h₁, h₂⟩ => ⟨List.isEmpty_eq_false_iff.2 h₁, List.all_eq_true.2 h₂⟩⟩

/-- Letters, digits and spaces, with no space at the ends. -/
structure Phrase (t : Text) : Prop where
  ne_nil : t ≠ []
  bytes : ∀ b ∈ t, Byte.isAlnum b ∨ b = 32
  first : ∀ b ∈ t.head?, Byte.isAlnum b
  last : ∀ b ∈ t.getLast?, Byte.isAlnum b

variable {s t u x y : Text} {b : UInt8}

theorem Identifier.isSpace (h : x.Identifier) : ∀ b ∈ x, Byte.isSpace b = false :=
  fun b hb => isSpace_of_isAlnum (h.alnum b hb)

theorem Identifier.not_mem (h : x.Identifier) : 32 ∉ x := fun hmem =>
  absurd (h.alnum 32 hmem) (by decide)

theorem identifier_lower_iff : x.lower.Identifier ↔ x.Identifier := by
  have halnum : (∀ b ∈ x.lower, Byte.isAlnum b) ↔ ∀ b ∈ x, Byte.isAlnum b := by
    rw [lower, List.forall_mem_map]
    simp only [isAlnum_lower]
  have hnil : x.lower = [] ↔ x = [] := List.map_eq_nil_iff
  constructor
  · intro h
    exact ⟨mt hnil.2 h.ne_nil, halnum.1 h.alnum⟩
  · intro h
    exact ⟨mt hnil.1 h.ne_nil, halnum.2 h.alnum⟩

theorem Identifier.phrase (h : x.Identifier) : x.Phrase where
  ne_nil := h.ne_nil
  bytes b hb := .inl (h.alnum b hb)
  first b hb := h.alnum b (List.mem_of_mem_head? hb)
  last b hb := h.alnum b (List.mem_of_getLast? hb)

theorem Phrase.append (hs : s.Phrase) (ht : t.Phrase) : (s ++ 32 :: t).Phrase where
  ne_nil := by simp
  bytes := by
    simp only [List.forall_mem_append, List.forall_mem_cons]
    exact ⟨hs.bytes, .inr trivial, ht.bytes⟩
  first := by
    rw [List.head?_append_of_ne_nil _ hs.ne_nil]
    exact hs.first
  last := by
    rw [List.getLast?_append_cons, List.getLast?_cons_of_ne_nil ht.ne_nil]
    exact ht.last

theorem Phrase.isSpace (h : t.Phrase) : ∀ b ∈ t.head?, Byte.isSpace b = false :=
  fun b hb => isSpace_of_isAlnum (h.first b hb)

theorem Phrase.isSpace_append (h : s.Phrase) (t : Text) :
    ∀ b ∈ (s ++ t).head?, Byte.isSpace b = false := by
  rw [List.head?_append_of_ne_nil _ h.ne_nil]
  exact h.isSpace

theorem Phrase.trim (h : t.Phrase) : t.trim = t :=
  trim_eq_self h.isSpace fun b hb => isSpace_of_isAlnum (h.last b hb)

theorem Phrase.hasAlnum (h : t.Phrase) : t.hasAlnum := by
  obtain ⟨b, t, rfl⟩ := List.exists_cons_of_ne_nil h.ne_nil
  exact List.any_eq_true.2 ⟨b, List.mem_cons_self .., h.first b rfl⟩

/-- No other byte is in a phrase. -/
theorem Phrase.ne (h : t.Phrase) {d : UInt8} (hd : Byte.isAlnum d = false) (hspace : d ≠ 32) :
    ∀ b ∈ t, b ≠ d := by
  rintro b hb rfl
  rcases h.bytes b hb with halnum | rfl
  · rw [hd] at halnum
    cases halnum
  · exact hspace rfl

theorem Phrase.sentences (h : t.Phrase) : t.sentences = [⟨t, none⟩] := by
  have hone : t.OneSentence := by
    rintro before b behind rfl hends
    have hne : ∀ d, Byte.isAlnum d = false → d ≠ 32 → b ≠ d := fun d hd hspace =>
      h.ne hd hspace b (by simp)
    rcases hends with hb | hb | hb | ⟨hb, -⟩ <;> exact hne _ (by decide) (by decide) hb
  rw [sentences_of_oneSentence hone h.hasAlnum, h.trim]

end Text

namespace Choice

open Regex Text

variable {a b s t w x y : Text} {previous : Option UInt8} {c : Captures} {d : UInt8}

/-! ## The pair -/

/-- The words of a question, in small letters. -/
theorem identifier_of_mem : ∀ w ∈ Text.ofStrings ["choose", "between", "or", "and", "option"],
    w.Identifier ∧ w.lower = w := by decide +kernel

theorem lower_choose : lower (Text.ofString "Choose") = Text.ofString "choose" := by decide +kernel

/-- A word that stands between the two names of a pair. -/
def IsConnective (w : Text) : Prop :=
  w.lower = Text.ofString "or" ∨ w.lower = Text.ofString "and"

instance (w : Text) : Decidable (IsConnective w) := inferInstanceAs (Decidable (_ ∨ _))

theorem run_connective {α : Type} {k : Place → Captures → Option α}
    (hw : ∀ d ∈ w, Byte.isSpace d = false) (hd : Byte.isSpace d) :
    run (alt (word "or") (word "and")) (run space k) ⟨previous, w ++ d :: t⟩ c =
      if IsConnective w then run space k ⟨w.getLast?.or previous, d :: t⟩ c else none := by
  obtain ⟨hor, hsmallOr⟩ := identifier_of_mem "or" (by simp [Text.ofStrings])
  obtain ⟨hand, hsmallAnd⟩ := identifier_of_mem "and" (by simp [Text.ofStrings])
  rw [run, run_word_space hor.isSpace hw hd, run_word_space hand.isSpace hw hd, hsmallOr, hsmallAnd]
  by_cases h : w.lower = Text.ofString "or"
  · have hne : w.lower ≠ Text.ofString "and" := by simp [h, ofString_inj]
    rw [if_pos h, if_neg hne, if_pos (show IsConnective w from .inl h)]
    cases run space k ⟨w.getLast?.or previous, d :: t⟩ c <;> rfl
  · have hiff : IsConnective w ↔ w.lower = Text.ofString "and" := or_iff_right h
    rw [if_neg h]
    simp only [hiff]
    rfl

theorem IsConnective.identifier (h : IsConnective w) : w.Identifier := by
  refine identifier_lower_iff.1 (identifier_of_mem w.lower ?_).1
  rcases h with h | h <;> simp [h, Text.ofStrings]

/-- The bytes that the first name of a pair may have. -/
def isInLine (d : UInt8) : Bool := d != '\n'.toUInt8 && d != '\r'.toUInt8

/-- The bytes that the second one may have. -/
def isInClause (d : UInt8) : Bool := !(".;!?".toUTF8.data.contains d)

/-- What is looked for behind the first name of a pair. -/
def runSecond {α : Type} (k : Place → Captures → Option α) : Place → Captures → Option α :=
  run space (run (alt (word "or") (word "and")) (run space
    (run (group 2 (atLeastOne isInClause)) k)))

section
variable {α : Type} {k : Place → Captures → Option α}

theorem runSecond_eq (hw : IsConnective w) (hb : b.Phrase) (hk : ∀ y d, (k y d).isSome) :
    ∃ previous', runSecond k ⟨previous, 32 :: (w ++ 32 :: b)⟩ c =
      k ⟨previous', []⟩ ((2, b) :: c) := by
  have hbytes : ∀ d ∈ b, isInClause d = true := by
    have hstop : ∀ d ∈ ".;!?".toUTF8.data.toList, Byte.isAlnum d = false ∧ d ≠ 32 := by
      decide +kernel
    intro d hd
    rw [isInClause, Bool.not_eq_true', ← Bool.not_eq_true, Array.contains_iff_mem,
      ← Array.mem_toList_iff]
    exact fun hmem => hb.ne (hstop d hmem).1 (hstop d hmem).2 d hd rfl
  have hgroup : run (group 2 (atLeastOne isInClause)) k ⟨some 32, b ++ []⟩ c =
      k ⟨b.getLast?.or (some 32), []⟩ ((2, b) :: c) :=
    run_group_append hb.ne_nil hbytes (by simp) (hk ..)
  rw [List.append_nil] at hgroup
  refine ⟨b.getLast?.or (some 32), ?_⟩
  rw [runSecond, run_space_cons (by decide) (hw.identifier.phrase.isSpace_append _),
    run_connective hw.identifier.isSpace (by decide), if_pos hw,
    run_space_cons (by decide) hb.isSpace, hgroup]

theorem runSecond_eq_none (ht : ∀ d ∈ t.head?, Byte.isSpace d = false) :
    runSecond k ⟨previous, t⟩ c = none := run_space_eq_none ht

/-- Another word in the place of a connective. -/
theorem runSecond_word (hw : w.Identifier) (hno : ¬ IsConnective w) :
    runSecond k ⟨previous, 32 :: (w ++ 32 :: t)⟩ c = none := by
  rw [runSecond, run_space_cons (by decide) (hw.phrase.isSpace_append _),
    run_connective hw.isSpace (by decide), if_neg hno]

end

/-- A name that is read to its end: behind a space comes a last word, which is no connective. -/
structure Whole (a : Text) : Prop extends Phrase a where
  rest : ∀ u v : Text, a = u ++ 32 :: v → v.Identifier ∧ ¬ IsConnective v

/-- No connective follows on a proper beginning of the name. -/
theorem Whole.runSecond_eq_none {α : Type} {k : Place → Captures → Option α} (ha : Whole a)
    {u v : Text} (h : a = u ++ v) (hv : v ≠ []) :
    runSecond k ⟨previous, v ++ 32 :: t⟩ c = none := by
  obtain ⟨d, v, rfl⟩ := List.exists_cons_of_ne_nil hv
  rcases ha.bytes d (by simp [h]) with hd | rfl
  · exact Choice.runSecond_eq_none (by simpa using isSpace_of_isAlnum hd)
  · obtain ⟨hword, hno⟩ := ha.rest u v h
    exact runSecond_word hword hno

/-- "Choose between" with two names and a word in between. -/
def pairOf (a w b : Text) : Text :=
  Text.join " " [Text.ofString "Choose", Text.ofString "between", a, w, b]

theorem run_between {α : Type} (k : Place → Captures → Option α) :
    run between k = run boundary
      (run (oneOf [word "choose", word "select", word "decide", word "pick"]) (run space
        (run (word "between") (run space
          (run (group 1 (seq (byte isInLine) (few isInLine))) (runSecond k)))))) := by
  unfold between
  simp only [run_ofList, run_ofList_nil]
  rfl

/-- The pair of a question. -/
theorem search_between (ha : Whole a) (hw : IsConnective w) (hb : b.Phrase) :
    between.search (pairOf a w b) = some ⟨(pairOf a w b).length, [(2, b), (1, a)]⟩ := by
  have hline : ∀ d ∈ a, isInLine d = true := fun d hd => by
    have hfeed : d ≠ '\n'.toUInt8 := ha.ne (by decide) (by decide) d hd
    have hreturn : d ≠ '\r'.toUInt8 := ha.ne (by decide) (by decide) d hd
    simp [isInLine, hfeed, hreturn]
  obtain ⟨-, hsmall⟩ := identifier_of_mem "choose" (by simp [Text.ofStrings])
  have hbetween := (identifier_of_mem "between" (by simp [Text.ofStrings])).1
  let k (y : Place) (c : Captures) : Option Match :=
    some ⟨(pairOf a w b).length - y.rest.length, c⟩
  obtain ⟨previous, hsecond⟩ : ∃ previous, runSecond k ⟨a.getLast?.or (some 32),
      32 :: (w ++ 32 :: b)⟩ [(1, a)] = k ⟨previous, []⟩ [(2, b), (1, a)] :=
    runSecond_eq hw hb fun _ _ => rfl
  have htext : pairOf a w b = Text.ofString "Choose" ++
      32 :: (Text.ofString "between" ++ 32 :: (a ++ 32 :: (w ++ 32 :: b))) := by
    simp only [pairOf, join_space, join_singleton]
  refine search_eq (m := ⟨(pairOf a w b).length, [(2, b), (1, a)]⟩) ?_ (by simp [htext])
  show run between k ⟨none, pairOf a w b⟩ [] = k ⟨previous, []⟩ [(2, b), (1, a)]
  rw [run_between, run, htext, if_pos (by rfl)]
  refine run_oneOf _ ?_
  rw [run_word_append (lower_choose.trans hsmall.symm),
    run_space_cons (by decide) (hbetween.phrase.isSpace_append _),
    run_word_append rfl, run_space_cons (by decide) (ha.isSpace_append _)]
  -- The first name is taken as short as possible, but none of its beginnings leads to a match.
  exact run_group_few ha.ne_nil hline (fun u v h _ hv => ha.runSecond_eq_none h hv) hsecond

/-! ## The names behind a word -/

theorem run_named {α : Type} (w : Text) (k : Place → Captures → Option α) :
    run (named w) k = run boundary
      (run (word w) (run space (run (group 1 (atLeastOne isNameByte)) k))) := by
  unfold named
  simp only [run_ofList, run_ofList_nil]

/-- No name is found where the text and the word differ within what is known of the text. -/
theorem matchAt_named_eq_none (h : ¬ x.lower <+: w.lower) (h' : ¬ w.lower <+: x.lower) :
    (named w).matchAt ⟨previous, x ++ t⟩ = none := by
  have hword : lower ((x ++ t).take w.length) ≠ w.lower := by
    intro he
    -- Either the word goes on behind `x`, or it ends within it.
    rcases Nat.le_total x.length w.length with hle | hle
    · rw [List.take_append, List.take_of_length_le hle, lower, List.map_append] at he
      exact h ⟨_, he⟩
    · rw [List.take_append_of_le_length hle] at he
      exact h' (he ▸ (List.take_prefix _ x).map _)
  rw [matchAt, run_named, run]
  split
  · rw [run_word, if_neg hword]
  · rfl

theorem allFrom_named_miss (h : ∀ v : Text, v ∈ x.tails → v ≠ [] → ¬ v.lower <+: w.lower ∧
    ¬ w.lower <+: v.lower) : allFrom (named w) previous 0 (x ++ t) =
      allFrom (named w) (x.getLast?.or previous) 0 t :=
  allFrom_miss fun u v hsplit hv => by
    obtain ⟨h, h'⟩ := h v ((List.mem_tails ..).2 ⟨u, hsplit.symm⟩) hv
    exact matchAt_named_eq_none h h'

theorem allFrom_named_hit (hw : w.Identifier) (hx : x.Identifier)
    (hprevious : previous.any isName = false) (ht : ∀ d ∈ t.head?, isNameByte d = false) :
    allFrom (named w) previous 0 ((w ++ 32 :: x) ++ t) =
      ⟨(w ++ 32 :: x).length, [(1, x)]⟩ ::
        allFrom (named w) ((w ++ 32 :: x).getLast?.or previous) 0 t := by
  have hname : ∀ d ∈ x, isNameByte d = true := fun d hd => by
    simp [isNameByte, isName, hx.alnum d hd]
  refine allFrom_hit ?_ rfl (by simp)
  rw [List.append_assoc, List.cons_append, matchAt, run_named, run, if_pos]
  · rw [run_word_append rfl, run_space_cons (by decide) (hx.phrase.isSpace_append t),
      run_group_append hx.ne_nil hname ht rfl]
    dsimp only
    rw [← List.cons_append, ← List.append_assoc, List.length_append, Nat.add_sub_cancel]
  · obtain ⟨d, w, rfl⟩ := List.exists_cons_of_ne_nil hw.ne_nil
    have hd : isName d = true := by simp [isName, hw.alnum d (List.mem_cons_self ..)]
    simp [Place.atBoundary, hprevious, hd]

/-! ## What a phrase says of a choice -/

/-- What sets an attribute has a colon or an equals sign in it. -/
theorem exists_mem_of_attribute {x : Place} {m : Match} (h : attributePattern.matchAt x = some m) :
    ∃ d ∈ x.rest, d = ':'.toUInt8 ∨ d = '='.toUInt8 := by
  unfold matchAt attributePattern at h
  simp only [run_ofList] at h
  obtain ⟨name, y, c, hname, h⟩ := exists_of_run h
  obtain ⟨tag, y', c', htag, h⟩ := exists_of_run h
  obtain ⟨gap, y'', c'', hgap, h⟩ := exists_of_run h
  rw [run] at h
  split at h
  · cases h
  · rename_i d rest hrest
    split at h
    · rename_i hd
      refine ⟨d, ?_, by simpa using hd⟩
      rw [hname, htag, hgap, hrest]
      simp
    · cases h

/-- A phrase sets no attribute. -/
theorem addAttributes_eq_self (ht : t.Phrase) (o : Choice Single) : o.addAttributes t = o := by
  have hnone : attributePattern.all t = [] := by
    refine List.eq_nil_iff_forall_not_mem.2 fun m hm => ?_
    obtain ⟨previous, s, u, rfl, hmatch⟩ := exists_of_mem_all hm
    obtain ⟨d, hd, hsign⟩ := exists_mem_of_attribute hmatch
    have hmem : d ∈ s ++ u := List.mem_append_right s hd
    rcases hsign with hsign | hsign <;> exact ht.ne (by decide) (by decide) d hmem hsign
  rw [addAttributes, hnone]
  rfl

theorem clauses_eq (ht : t.Phrase) : clauses t = [t] := by
  have hbreak : ∀ b ∈ t, (b == ','.toUInt8 || b == ';'.toUInt8) = false := fun b hb => by
    have hcomma : b ≠ ','.toUInt8 := ht.ne (by decide) (by decide) b hb
    have hsemicolon : b ≠ ';'.toUInt8 := ht.ne (by decide) (by decide) b hb
    simp [hcomma, hsemicolon]
  rw [clauses, ht.sentences, List.flatMap_singleton, splitWhere_eq_singleton hbreak]

/-- Nothing but its name is known of a choice. -/
theorem ofName_of_phrase (ht : t.Phrase) (name : Text) (confidence : Single) :
    ofName name (clauses t) confidence =
      ⟨name.slug, name, "Option from input", [], [], [], confidence⟩ := by
  rw [clauses_eq ht, ofName]
  refine List.foldlRecOn _ _ (motive := (· = _)) rfl fun o ho d hd => ?_
  rw [List.eq_of_mem_singleton (List.mem_of_mem_filter hd), addAttributes_eq_self ht, ho]

theorem cutTrailingClause_eq_self (ht : t.Phrase) (h : ∀ s ∈ clauseStarts, ¬ s <:+: t.lower) :
    cutTrailingClause t = t := by
  have hnone : (clauseStarts.filterMap fun s => t.lower.find? s) = [] :=
    List.filterMap_eq_nil_iff.2 fun s hs => by
      rw [← Option.not_isSome_iff_eq_none, isSome_find?_iff]
      exact h s hs
  unfold cutTrailingClause
  dsimp only
  rw [hnone]
  exact ht.trim

/-! ## A question in both forms -/

/-- "Choose between" two names, each behind the word "option". -/
def question (x y : Text) : Text :=
  Text.join " " [Text.ofString "Choose", Text.ofString "between", Text.ofString "option", x,
    Text.ofString "or", Text.ofString "option", y]

/-- A name with the word "option" in front. -/
def withOption (x : Text) : Text := Text.join " " [Text.ofString "option", x]

theorem identifier_option : (Text.ofString "option").Identifier :=
  (identifier_of_mem _ (by simp [Text.ofStrings])).1

theorem identifier_or : (Text.ofString "or").Identifier :=
  (identifier_of_mem _ (by simp [Text.ofStrings])).1

theorem question_eq (x y : Text) : question x y = pairOf (withOption x) "or" (withOption y) := by
  simp only [question, pairOf, withOption, join_space, join_singleton, List.append_assoc,
    List.cons_append]

theorem withOption_eq (x : Text) : withOption x = Text.ofString "option" ++ 32 :: x :=
  join_space ..

theorem phrase_withOption (hx : x.Identifier) : Phrase (withOption x) := by
  rw [withOption_eq]
  exact identifier_option.phrase.append hx.phrase

theorem phrase_question (hx : x.Identifier) (hy : y.Identifier) : (question x y).Phrase := by
  have hchoose : (Text.ofString "Choose").Identifier := by
    rw [← identifier_lower_iff, lower_choose]
    exact (identifier_of_mem _ (by simp [Text.ofStrings])).1
  have hbetween := (identifier_of_mem "between" (by simp [Text.ofStrings])).1
  rw [question_eq]
  simp only [pairOf, join_space, join_singleton]
  exact hchoose.phrase.append (hbetween.phrase.append
    ((phrase_withOption hx).append (identifier_or.phrase.append (phrase_withOption hy))))

/-- Both names are found behind the word. -/
theorem all_named_question (hx : x.Identifier) (hy : y.Identifier) :
    ((named "option").all (question x y)).map (·.piece 1) = [x, y] := by
  have htext : question x y =
      (Text.ofString "Choose" ++ 32 :: Text.ofString "between" ++ [32]) ++
        ((Text.ofString "option" ++ 32 :: x) ++ ((32 :: Text.ofString "or" ++ [32]) ++
          ((Text.ofString "option" ++ 32 :: y) ++ []))) := by
    simp only [question, join_space, join_singleton]
    simp
  have hspace : isNameByte 32 = false := by decide
  rw [all, htext, allFrom_named_miss (by decide +kernel),
    allFrom_named_hit identifier_option hx (by rw [List.getLast?_concat]; rfl)
      (by simpa using hspace),
    allFrom_named_miss (by decide +kernel),
    allFrom_named_hit identifier_option hy (by rw [List.getLast?_concat]; rfl) (by simp), allFrom]
  rfl

/-- The names of a question, read as a pair in one way or another. -/
theorem names_question (hx : x.Identifier) (hy : y.Identifier) (ha : Whole a)
    (hw : IsConnective w) (hb : b.Phrase) (hclause : ∀ s ∈ clauseStarts, ¬ s <:+: b.lower)
    (h : question x y = pairOf a w b) :
    names (question x y) = distinctBy lower [a, b, x, y] := by
  have hsearch : between.search (question x y) =
      some ⟨(pairOf a w b).length, [(2, b), (1, a)]⟩ := by
    rw [h]
    exact search_between ha hw hb
  have halnum : ∀ n ∈ [a, b, x, y], n.hasAlnum := by
    simp [ha.hasAlnum, hb.hasAlnum, hx.phrase.hasAlnum, hy.phrase.hasAlnum]
  have hfirst : Match.piece ⟨(pairOf a w b).length, [(2, b), (1, a)]⟩ 1 = a := rfl
  have hsecond : Match.piece ⟨(pairOf a w b).length, [(2, b), (1, a)]⟩ 2 = b := rfl
  unfold names
  rw [hsearch, all_named_question hx hy]
  dsimp only
  rw [hfirst, hsecond, ha.trim, cutTrailingClause_eq_self hb hclause, distinctNames]
  exact congrArg _ (List.filter_eq_self.2 halnum)

/-- What starts a clause ends with a space, so it would stand before the last word. -/
theorem not_infix_of_mem_clauseStarts (hy : y.Identifier)
    (hf : t ∈ [Text.ofString "option", Text.ofString "or" ++ 32 :: Text.ofString "option"])
    (hs : s ∈ clauseStarts) : ¬ s <:+: lower (t ++ 32 :: y) := by
  have hlast : ∀ s ∈ clauseStarts, s.getLast? = some 32 := by decide +kernel
  have hno : ∀ t ∈ [Text.ofString "option", Text.ofString "or" ++ 32 :: Text.ofString "option"],
      ∀ s ∈ clauseStarts, ¬ s <:+: lower (t ++ [32]) := by decide +kernel
  intro h
  rw [← List.singleton_append, ← List.append_assoc, lower, List.map_append] at h
  refine hno t hf s hs (infix_left_of_infix_append (t := y.lower) ?_ h)
  rw [hlast s hs]
  rintro d ⟨⟩
  exact (identifier_lower_iff.2 hy).not_mem

theorem whole_option : Whole "option" where
  toPhrase := identifier_option.phrase
  rest u v h := by
    have hmem : (32 : UInt8) ∈ Text.ofString "option" := by simp [h]
    exact absurd hmem identifier_option.not_mem

theorem whole_withOption (hx : x.Identifier) (hno : ¬ IsConnective x) : Whole (withOption x) where
  toPhrase := phrase_withOption hx
  rest u v h := by
    rw [withOption_eq] at h
    obtain ⟨-, -, rfl⟩ :=
      (List.append_cons_inj_of_notMem identifier_option.not_mem hx.not_mem).1 h
    exact ⟨hx, hno⟩

/-- A text with a space is no word, in whatever case. -/
theorem lower_ne_lower (hs : s.Identifier) (ht : 32 ∈ t) : s.lower ≠ t.lower := by
  intro h
  refine (identifier_lower_iff.2 hs).not_mem ?_
  rw [h]
  exact List.mem_map.2 ⟨32, ht, rfl⟩

/-- The names that are read out of a question.  A connective that is a name itself ends the first
    name of the pair, and the second begins with the word that was to end it. -/
def offered (x y : Text) : List Text :=
  if IsConnective x then
    [Text.ofString "option", Text.join " " [Text.ofString "or", withOption y], x] ++
      if y.lower = Text.ofString "option" then [] else [y]
  else [withOption x, withOption y, x, y]

theorem names_of_isConnective (hw : IsConnective x) (hy : y.Identifier) (hne : x.lower ≠ y.lower) :
    names (question x y) = offered x y := by
  have hx := hw.identifier
  have hsecond : Text.join " " [Text.ofString "or", withOption y] =
      Text.ofString "or" ++ 32 :: withOption y := join_space ..
  have hphrase := identifier_or.phrase.append (phrase_withOption hy)
  have hquestion : question x y = pairOf "option" x (Text.ofString "or" ++ 32 :: withOption y) := by
    simp only [question, pairOf, withOption, join_space, join_singleton]
  have hclause : ∀ s ∈ clauseStarts, ¬ s <:+: lower (Text.ofString "or" ++ 32 :: withOption y) := by
    intro s hs h
    rw [withOption_eq, ← List.cons_append, ← List.append_assoc] at h
    exact not_infix_of_mem_clauseStarts hy (by simp) hs h
  have hspace : 32 ∈ Text.ofString "or" ++ 32 :: withOption y := by simp
  have hsmall := (identifier_of_mem "option" (by simp [Text.ofStrings])).2
  have hword : x.lower ≠ Text.ofString "option" := by
    rcases hw with hw | hw <;> simp [hw, ofString_inj]
  rw [names_question hx hy whole_option hw hphrase hclause hquestion, offered, if_pos hw, hsecond]
  -- From here on only the space in the second name matters.
  generalize hb : Text.ofString "or" ++ 32 :: withOption y = b at *
  have hfirst : (([Text.ofString "option", b, x] : List Text).map lower).Nodup := by
    have hoption := lower_ne_lower identifier_option hspace
    rw [hsmall] at hoption
    simp [hoption, (lower_ne_lower hx hspace).symm, hsmall, hword.symm]
  have hlast : y.lower ∈ ([Text.ofString "option", b, x] : List Text).map lower ↔
      y.lower = Text.ofString "option" := by
    simp [lower_ne_lower hy hspace, hsmall, hne.symm]
  show distinctBy lower ([Text.ofString "option", b, x] ++ [y]) = _
  rw [distinctBy_concat, distinctBy_eq_self hfirst]
  simp only [any_key_iff, hlast]
  split <;> rfl

theorem names_of_not_isConnective (hx : x.Identifier) (hno : ¬ IsConnective x) (hy : y.Identifier)
    (hne : x.lower ≠ y.lower) : names (question x y) = offered x y := by
  have hspace (t : Text) : 32 ∈ withOption t := by simp [withOption_eq]
  have hpair : lower (withOption x) ≠ lower (withOption y) := by
    simpa [withOption_eq, lower] using hne
  have hclause : ∀ s ∈ clauseStarts, ¬ s <:+: lower (withOption y) := by
    intro s hs h
    rw [withOption_eq] at h
    exact not_infix_of_mem_clauseStarts hy (by simp) hs h
  have hor := (identifier_of_mem "or" (by simp [Text.ofStrings])).2
  rw [names_question hx hy (whole_withOption hx hno) (w := "or") (.inl hor) (phrase_withOption hy)
    hclause (question_eq x y), offered, if_neg hno, distinctBy_eq_self]
  simp [hpair, hne, (lower_ne_lower hx (hspace _)).symm, (lower_ne_lower hy (hspace _)).symm]

theorem names_question_eq (hx : x.Identifier) (hy : y.Identifier) (hne : x.lower ≠ y.lower) :
    names (question x y) = offered x y := by
  by_cases hw : IsConnective x
  · exact names_of_isConnective hw hy hne
  · exact names_of_not_isConnective hx hw hy hne

/-- **An option that is named in both forms is counted twice.**  Of two different names, each behind
    the word "option", the pair takes the word into its names, so these are others than the names
    that stand behind the word, and there are never two choices only.  They are four, unless the
    first name is a connective, which cuts the pair before the second one.  Nothing else is known of
    a choice. -/
theorem ofInput_question (hx : x.Identifier) (hy : y.Identifier) (hne : x.lower ≠ y.lower)
    (confidence : Single) :
    ofInput (question x y) confidence =
      (offered x y).map (fun n => ⟨n.slug, n, "Option from input", [], [], [], confidence⟩) ∧
    2 < (ofInput (question x y) confidence).length := by
  have heq : ofInput (question x y) confidence =
      (offered x y).map fun n => ⟨n.slug, n, "Option from input", [], [], [], confidence⟩ := by
    rw [ofInput, names_question_eq hx hy hne]
    exact List.map_congr_left fun n _ => ofName_of_phrase (phrase_question hx hy) n confidence
  refine ⟨heq, ?_⟩
  rw [heq, List.length_map, offered]
  split <;> simp

/-- Two languages, and a name that is a connective. -/
theorem ofInput_question_languages :
    (ofInput (question "Rust" "Go") 0.75).map (·.name) =
      Text.ofStrings ["option Rust", "option Go", "Rust", "Go"] ∧
    (ofInput (question "Or" "Option") 0.75).map (·.name) =
      Text.ofStrings ["option", "or option Option", "Or"] := by
  rw [(ofInput_question (x := "Rust") (y := "Go") (by decide +kernel) (by decide +kernel)
      (by decide +kernel) 0.75).1,
    (ofInput_question (x := "Or") (y := "Option") (by decide +kernel) (by decide +kernel)
      (by decide +kernel) 0.75).1]
  decide +kernel

/-- A choice for each of the two names, and one more for each with the word in front. -/
theorem ofInput_question_letters :
    let x := Text.ofString "A"
    let y := Text.ofString "B"
    x.Identifier ∧ y.Identifier ∧ x.lower ≠ y.lower ∧
      question x y = Text.ofString "Choose between option A or option B" ∧
      ((ofInput (question x y) 0.7).map (·.name)) =
        Text.ofStrings ["option A", "option B", "A", "B"] ∧
      (ofInput (question x y) 0.7).length ≠ 2 := by
  decide +kernel

end Choice

end Reasoning
