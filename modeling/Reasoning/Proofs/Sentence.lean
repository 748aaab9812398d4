/-
  What the sentences of a text keep of it.

  A text is cut at the bytes that end a sentence, and its sentences are the fragments between the
  cuts that have a letter or digit, trimmed.

  * `Text.EndsSentence`, `Text.OneSentence`: what ends a sentence, and texts in which nothing does;
  * `Sentence.Cuts`: the fragments of a text with what ended them, `Sentence.cuts_fragments`: they
    are what is found;
  * `Text.sentences_of_oneSentence`: a text in which nothing ends a sentence is one;
  * `Text.sentences_faithful`: all letters and digits are kept, what ended a sentence is recorded,
    and a sentence is its own only sentence.
-/
import Reasoning.Proofs.Text
import Reasoning.Text.Sentence

namespace Reasoning

/-! ## Ends of sentences -/

namespace Text

variable {s t u before behind : Text} {b : UInt8}

/-- The byte ends a sentence between what is before it and what is behind it: a point does, unless
    it stands between two digits. -/
def EndsSentence (before : Text) (b : UInt8) (behind : Text) : Prop :=
  b = '!'.toUInt8 ∨ b = '?'.toUInt8 ∨ b = '\n'.toUInt8 ∨
    b = '.'.toUInt8 ∧ ¬ (before.getLast?.any Byte.isDigit ∧ behind.head?.any Byte.isDigit)

/-- No byte of the text ends a sentence. -/
def OneSentence (t : Text) : Prop :=
  ∀ before b behind, t = before ++ b :: behind → ¬ EndsSentence before b behind

theorem isBoundary_iff :
    Sentence.isBoundary before.getLast? b behind.head? ↔ EndsSentence before b behind := by
  simp [Sentence.isBoundary, EndsSentence, or_assoc, imp_iff_not_or]

/-- What ends a sentence is no letter and no digit. -/
theorem EndsSentence.isAlnum (h : EndsSentence before b behind) : Byte.isAlnum b = false := by
  rcases h with rfl | rfl | rfl | ⟨rfl, -⟩ <;> decide

/-- More text on either side changes nothing if it does not bring a digit next to the byte. -/
theorem endsSentence_append_iff (hbefore : ¬ before.getLast?.any Byte.isDigit)
    (hbehind : ¬ behind.head?.any Byte.isDigit) :
    EndsSentence (before ++ s) b (u ++ behind) ↔ EndsSentence s b u := by
  have hor {o o' : Option UInt8} (h : ¬ o'.any Byte.isDigit) :
      (o.or o').any Byte.isDigit = o.any Byte.isDigit := by
    cases o with
    | none => simpa using h
    | some c => rfl
  rw [EndsSentence, EndsSentence, List.getLast?_append, List.head?_append, hor hbefore,
    hor hbehind]

theorem OneSentence.infix (h : OneSentence (before ++ t ++ behind))
    (hbefore : ¬ before.getLast?.any Byte.isDigit) (hbehind : ¬ behind.head?.any Byte.isDigit) :
    t.OneSentence := by
  rintro s b u rfl hends
  exact h (before ++ s) b (u ++ behind) (by simp)
    ((endsSentence_append_iff hbefore hbehind).2 hends)

theorem OneSentence.trim (h : t.OneSentence) : t.trim.OneSentence := by
  have hspace {c : UInt8} (hc : Byte.isSpace c) : ¬ Byte.isDigit c := fun hdigit => by
    have := isAlnum_of_isSpace hc
    rw [Byte.isAlnum, hdigit, Bool.or_true] at this
    cases this
  obtain ⟨before, behind, ht, hbefore, hbehind⟩ := exists_trim t
  rw [ht] at h
  refine h.infix ?_ ?_
  · rw [Option.any_eq_true]
    rintro ⟨c, hc, hdigit⟩
    exact hspace (hbefore c (List.mem_of_getLast? hc)) hdigit
  · rw [Option.any_eq_true]
    rintro ⟨c, hc, hdigit⟩
    exact hspace (hbehind c (List.mem_of_mem_head? hc)) hdigit

/-- Cutting space loses no letter or digit. -/
theorem filter_isAlnum_trim (t : Text) : t.trim.filter Byte.isAlnum = t.filter Byte.isAlnum := by
  obtain ⟨before, behind, ht, hbefore, hbehind⟩ := exists_trim t
  have hnone {s : Text} (hs : ∀ c ∈ s, Byte.isSpace c) : s.filter Byte.isAlnum = [] :=
    List.filter_eq_nil_iff.2 fun c hc => by simp [isAlnum_of_isSpace (hs c hc)]
  conv => rhs; rw [ht]
  rw [List.filter_append, List.filter_append, hnone hbefore, hnone hbehind, List.nil_append,
    List.append_nil]

end Text

/-! ## Fragments -/

namespace Sentence

open Text (EndsSentence)

variable {before t : Text} {fs : List Sentence}

/-- No byte of the text between two others ends a sentence. -/
def Quiet (before t behind : Text) : Prop :=
  ∀ s b u, t = s ++ b :: u → ¬ EndsSentence (before ++ s) b (u ++ behind)

/-- What is left of a text behind `before` is cut into fragments: one ends before each byte that
    ends a sentence, which is recorded with it, and the last one runs to the end. -/
inductive Cuts : Text → Text → List Sentence → Prop
  | last {before t : Text} : Quiet before t [] → Cuts before t [⟨t, none⟩]
  | cut {before t rest : Text} {b : UInt8} {fs : List Sentence} : Quiet before t (b :: rest) →
      EndsSentence (before ++ t) b rest → Cuts (before ++ t ++ [b]) rest fs →
      Cuts before (t ++ b :: rest) (⟨t, some b⟩ :: fs)

theorem quiet_nil (before behind : Text) : Quiet before [] behind := fun s b u h => by
  cases s <;> cases h

/-- A byte that ends nothing comes to the text behind it. -/
theorem Quiet.cons {behind : Text} {b : UInt8} (hb : ¬ EndsSentence before b (t ++ behind))
    (h : Quiet (before ++ [b]) t behind) : Quiet before (b :: t) behind := by
  intro s c u ht
  cases s with
  | nil =>
    cases ht
    rwa [List.append_nil]
  | cons d s =>
    cases ht
    have := h s c u rfl
    rwa [List.append_assoc] at this

theorem cuts_fragments (before t : Text) : Cuts before t (fragments before.getLast? t) := by
  induction t generalizing before with
  | nil => exact .last (quiet_nil _ _)
  | cons b t ih =>
    have hrest := ih (before ++ [b])
    rw [List.getLast?_append, List.getLast?_singleton, Option.some_or] at hrest
    unfold fragments
    split
    · rename_i hboundary
      refine .cut (t := []) (quiet_nil _ _) ?_ ?_
      · rw [List.append_nil]
        exact Text.isBoundary_iff.1 hboundary
      · rwa [List.append_nil]
    · rename_i hboundary
      rw [Text.isBoundary_iff] at hboundary
      generalize fragments (some b) t = fs at hrest
      cases hrest with
      | last hquiet => exact .last (.cons (by rwa [List.append_nil]) hquiet)
      | cut hquiet hends hcuts =>
        refine .cut (.cons hboundary hquiet) ?_ ?_
        · rwa [List.append_assoc, List.singleton_append] at hends
        · rwa [List.append_assoc before, List.singleton_append] at hcuts

theorem Cuts.filter_isAlnum (h : Cuts before t fs) :
    (fs.flatMap (·.text)).filter Byte.isAlnum = t.filter Byte.isAlnum := by
  induction h with
  | last => simp
  | cut _ hends _ ih => simp [ih, hends.isAlnum]

/-- Nothing ends a sentence within a fragment, even for itself. -/
theorem Cuts.oneSentence (h : Cuts before t fs) (hbefore : ¬ before.getLast?.any Byte.isDigit) :
    ∀ f ∈ fs, f.text.OneSentence := by
  have hdigit {before behind : Text} {b : UInt8} (h : EndsSentence before b behind) :
      ¬ Byte.isDigit b := by
    rcases h with rfl | rfl | rfl | ⟨rfl, -⟩ <;> decide
  induction h with
  | last hquiet =>
    intro f hf
    obtain rfl := List.mem_singleton.1 hf
    intro s b u ht hends
    exact hquiet s b u ht ((Text.endsSentence_append_iff hbefore (by simp)).2 hends)
  | cut hquiet hends _ ih =>
    intro f hf
    rcases List.mem_cons.1 hf with rfl | hf
    · intro s b u ht hwithin
      exact hquiet s b u ht
        ((Text.endsSentence_append_iff hbefore (by simpa using hdigit hends)).2 hwithin)
    · exact ih (by simpa using hdigit hends) f hf

theorem filterMap_ofFragment? (fs : List Sentence) :
    fs.filterMap ofFragment? =
      (fs.filter (·.text.hasAlnum)).map fun f => { f with text := f.text.trim } := by
  induction fs with
  | nil => rfl
  | cons f fs ih =>
    cases h : f.text.hasAlnum <;> simp [ofFragment?, Text.hasAlnum_trim, h, ih]

/-- A fragment without letters and digits has none to lose. -/
theorem filter_isAlnum_flatMap (fs : List Sentence) :
    ((fs.filterMap ofFragment?).flatMap (·.text)).filter Byte.isAlnum =
      (fs.flatMap (·.text)).filter Byte.isAlnum := by
  rw [filterMap_ofFragment?]
  induction fs with
  | nil => rfl
  | cons f fs ih =>
    cases h : f.text.hasAlnum with
    | true => simpa [h, Text.filter_isAlnum_trim] using ih
    | false =>
      have hnone : f.text.filter Byte.isAlnum = [] := by
        simpa [Text.hasAlnum, List.filter_eq_nil_iff] using h
      simpa [h, hnone] using ih

/-- A text in which nothing ends a sentence is its only fragment. -/
theorem fragments_of_quiet (h : Quiet before t []) :
    fragments before.getLast? t = [⟨t, none⟩] := by
  induction t generalizing before with
  | nil => rfl
  | cons b t ih =>
    have hb : ¬ EndsSentence before b t := by simpa using h [] b t rfl
    have hrest : fragments (some b) t = [⟨t, none⟩] := by
      have hquiet : Quiet (before ++ [b]) t [] := fun s c u ht => by
        have := h (b :: s) c u (by rw [ht, List.cons_append])
        rwa [List.append_cons] at this
      have := ih hquiet
      rwa [List.getLast?_append, List.getLast?_singleton, Option.some_or] at this
    unfold fragments
    rw [if_neg fun hboundary => hb (Text.isBoundary_iff.1 hboundary), hrest]

end Sentence

/-! ## Sentences -/

namespace Text

variable {t : Text}

theorem sentences_of_oneSentence (h : t.OneSentence) (halnum : t.hasAlnum) :
    t.sentences = [⟨t.trim, none⟩] := by
  have hquiet : Sentence.Quiet [] t [] := fun s b u ht => by simpa using h s b u ht
  have hfragments : Sentence.fragments none t = [⟨t, none⟩] := Sentence.fragments_of_quiet hquiet
  simp [sentences, hfragments, Sentence.filterMap_ofFragment?, halnum]

theorem mem_sentences {s : Sentence} :
    s ∈ t.sentences ↔ ∃ f ∈ Sentence.fragments none t, f.text.hasAlnum ∧
      s = ⟨f.text.trim, f.terminator⟩ := by
  rw [sentences, Sentence.filterMap_ofFragment?, List.mem_map]
  simp only [List.mem_filter, and_assoc, eq_comm]

/-- **Splitting loses nothing and is stable.**  The letters and digits of the sentences are those
    of the text.  Every sentence is trimmed, has a letter or digit, has nothing within that ends a
    sentence, and is its own only sentence.  The sentences are what the cuts at the ends of
    sentences leave, each with the byte that ended it, or with none at the end of the text. -/
theorem sentences_faithful (t : Text) :
    (t.sentences.flatMap (·.text)).filter Byte.isAlnum = t.filter Byte.isAlnum ∧
    (∀ s ∈ t.sentences, s.text.trim = s.text ∧ s.text.hasAlnum ∧ s.text.OneSentence ∧
      s.text.sentences = [⟨s.text, none⟩]) ∧
    ∃ fs, Sentence.Cuts [] t fs ∧ t.sentences =
      (fs.filter (·.text.hasAlnum)).map fun f => ⟨f.text.trim, f.terminator⟩ := by
  have hcuts : Sentence.Cuts [] t (Sentence.fragments none t) := Sentence.cuts_fragments [] t
  refine ⟨?_, fun s hs => ?_, _, hcuts, Sentence.filterMap_ofFragment? _⟩
  · rw [sentences, Sentence.filter_isAlnum_flatMap, hcuts.filter_isAlnum]
  · obtain ⟨f, hf, halnum, rfl⟩ := mem_sentences.1 hs
    have hone := (hcuts.oneSentence (by simp) f hf).trim
    have halnum : f.text.trim.hasAlnum := by rwa [hasAlnum_trim]
    have htrim := trim_trim f.text
    refine ⟨htrim, halnum, hone, ?_⟩
    rw [sentences_of_oneSentence hone halnum, htrim]

example : (Text.ofString "Pi is 3.14. Is it? ...no").sentences =
    [⟨"Pi is 3.14", some '.'.toUInt8⟩, ⟨"Is it", some '?'.toUInt8⟩, ⟨"no", none⟩] := by
  decide +kernel

end Text

end Reasoning
