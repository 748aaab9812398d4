/-
  Logical symbols and the words they are written as.

  Each symbol that is written as a word adds this word to a text, and takes none away.

  * `Connective.HasSymbol`: a symbol stands in the text;
  * `Connective.mem_of_mem_normalize`, `Connective.hasAlnum_normalize`: what is kept and put in;
  * `Connective.normalize_of_not_hasSymbol`, `Connective.words_normalize_iff`: a text keeps its
    words exactly when it has no symbol.
-/
import Reasoning.Proofs.Replacement

namespace Reasoning.Connective

variable {t : Text} {b : UInt8} {table : List (Text × Text)}

/-- A logical symbol stands somewhere in the text. -/
def HasSymbol (t : Text) : Prop := ∃ s ∈ symbols, s.1 <:+: t

instance (t : Text) : Decidable (HasSymbol t) :=
  inferInstanceAs (Decidable (∃ s ∈ symbols, s.1 <:+: t))

/-- A symbol and a word for it: neither of them runs into the words around it. -/
structure Spelled (s : Text × Text) : Prop where
  symbol : s.1.isFenced
  noWord : s.1.words = []
  noLetter : s.1.all fun b => !Byte.isAlnum b
  word : s.2.isFenced
  isWord : s.2.words ≠ []

theorem spelled_symbols : ∀ s ∈ symbols, Spelled s := by
  have all : ∀ s ∈ symbols, s.1.isFenced ∧ s.1.words = [] ∧ (s.1.all fun b => !Byte.isAlnum b) ∧
      s.2.isFenced ∧ s.2.words ≠ [] := by decide +kernel
  intro s hs
  obtain ⟨h₁, h₂, h₃, h₄, h₅⟩ := all s hs
  exact ⟨h₁, h₂, h₃, h₄, h₅⟩

theorem Spelled.ne_nil {s : Text × Text} (h : Spelled s) : s.1 ≠ [] := fun hnil => by
  have := h.symbol
  rw [hnil] at this
  cases this

/-! ## Bytes -/

/-- What a normal form is made of is there already, or comes of a word for a symbol. -/
theorem mem_of_mem_normalize (hb : b ∈ normalize t) : b ∈ t ∨ ∃ s ∈ symbols, b ∈ s.2 := by
  revert hb
  refine List.foldlRecOn symbols _
    (motive := fun u : Text => b ∈ u → b ∈ t ∨ ∃ s ∈ symbols, b ∈ s.2) .inl ?_
  intro u hu s hs hb
  rcases Text.mem_of_mem_replaceAll (spelled_symbols s hs).ne_nil hb with hb | hb
  · exact hu hb
  · exact .inr ⟨s, hs, hb⟩

theorem hasAlnum_normalize (h : t.hasAlnum) : (normalize t).hasAlnum := by
  refine List.foldlRecOn symbols _ (motive := fun u : Text => u.hasAlnum = true) h ?_
  intro u hu s hs
  obtain ⟨b, hb, halnum⟩ := List.any_eq_true.1 hu
  have hold : b ∉ s.1 := fun hmem => by
    have := List.all_eq_true.1 (spelled_symbols s hs).noLetter b hmem
    rw [halnum] at this
    cases this
  exact List.any_eq_true.2
    ⟨b, Text.mem_replaceAll (spelled_symbols s hs).ne_nil hold hb, halnum⟩

/-! ## Words -/

theorem normalize_of_not_hasSymbol (h : ¬ HasSymbol t) : normalize t = t := by
  refine List.foldlRecOn symbols _ (motive := (· = t)) rfl ?_
  rintro _ rfl s hs
  exact Text.replaceAll_of_not_infix s.2 fun hinfix => h ⟨s, hs, hinfix⟩

/-- Words are put in for each symbol that stands in the text when its turn comes, and the first one
    that stands in it does. -/
theorem length_words_foldl (htable : ∀ s ∈ table, Spelled s) (t : Text) :
    let u := table.foldl (fun t s => t.replaceAll s.1 s.2) t
    t.words.length ≤ u.words.length ∧
      ((∃ s ∈ table, s.1 <:+: t) → t.words.length < u.words.length) := by
  induction table generalizing t with
  | nil => simp
  | cons s table ih =>
    obtain ⟨hs, htable⟩ := List.forall_mem_cons.1 htable
    obtain ⟨n, hn, hlength⟩ := Text.length_words_replaceAll hs.symbol hs.noWord hs.word t
    have hrest := ih htable (t.replaceAll s.1 s.2)
    dsimp only at hrest ⊢
    rw [List.foldl_cons]
    by_cases hstands : s.1 <:+: t
    · have hput : 0 < n * s.2.words.length :=
        Nat.mul_pos (hn.2 hstands) (List.length_pos_iff.2 hs.isWord)
      exact ⟨by omega, fun _ => by omega⟩
    · rw [Text.replaceAll_of_not_infix s.2 hstands] at hrest ⊢
      refine ⟨hrest.1, fun ⟨s', hs', hinfix⟩ => hrest.2 ⟨s', ?_, hinfix⟩⟩
      rcases List.mem_cons.1 hs' with rfl | hs'
      · exact absurd hinfix hstands
      · exact hs'

/-- Writing symbols as words leaves the words of a text as they are if and only if it has no
    symbol. -/
theorem words_normalize_iff : (normalize t).words = t.words ↔ ¬ HasSymbol t := by
  constructor
  · intro hwords hsymbol
    have hlt := (length_words_foldl spelled_symbols t).2 hsymbol
    exact absurd (congrArg List.length hwords) (Nat.ne_of_gt hlt)
  · intro h
    rw [normalize_of_not_hasSymbol h]

end Reasoning.Connective
