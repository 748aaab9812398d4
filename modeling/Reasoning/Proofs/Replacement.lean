/-
  What replacing leaves of a text.

  The pieces of a text stay, and something else is put between them.

  * `Text.mem_of_mem_replaceAll`, `Text.mem_replaceAll`: the bytes that are there afterwards;
  * `Text.words_append_fenced`: words around what begins and ends with a break;
  * `Text.length_words_replaceAll`: how many words are put in;
  * `Text.words_canonical`, `Text.canonical_inj`: a canonical form has the words of its statement.
-/
import Reasoning.Proofs.Pieces
import Reasoning.Proofs.Search
import Reasoning.Proofs.Words

namespace Reasoning.Text

variable {old new sep s t : Text} {ps : List Text} {b : UInt8}

/-! ## Bytes -/

/-- A byte of one of the parts is in the joined text. -/
theorem mem_join_of_mem {p : Text} (hp : p ∈ ps) (hb : b ∈ p) : b ∈ join s ps := by
  induction ps with
  | nil => cases hp
  | cons q ps ih =>
    cases ps with
    | nil =>
      obtain rfl := List.mem_singleton.1 hp
      exact hb
    | cons r ps =>
      rw [join_cons_cons]
      rcases List.mem_cons.1 hp with rfl | hp
      · exact List.mem_append_left _ (List.mem_append_left _ hb)
      · exact List.mem_append_right _ (ih hp)

/-- What comes of replacing is left of the text, or put in. -/
theorem mem_of_mem_replaceAll (hne : old ≠ []) (hb : b ∈ replaceAll t old new) :
    b ∈ t ∨ b ∈ new := by
  obtain ⟨p, ps, hps⟩ := exists_pieces hne t
  rw [hps.replaceAll_eq hne] at hb
  rcases mem_join hb with hb | ⟨q, hq, hb⟩
  · exact .inr hb
  · exact .inl (hps.join_eq ▸ mem_join_of_mem hq hb)

/-- Bytes that the replaced text does not have stay. -/
theorem mem_replaceAll (hne : old ≠ []) (hold : b ∉ old) (hb : b ∈ t) :
    b ∈ replaceAll t old new := by
  obtain ⟨p, ps, hps⟩ := exists_pieces hne t
  rw [← hps.join_eq] at hb
  obtain ⟨q, hq, hb⟩ := (mem_join hb).resolve_left hold
  rw [hps.replaceAll_eq hne]
  exact mem_join_of_mem hq hb

/-! ## Words between breaks -/

/-- The text begins and ends with a byte that belongs to no word. -/
def isFenced (s : Text) : Bool := s.head?.any (!Byte.isWord ·) && s.getLast?.any (!Byte.isWord ·)

theorem words_append_cons (hb : Byte.isWord b = false) (s t : Text) :
    words (s ++ b :: t) = words s ++ words t := by
  have hlower : lower (s ++ b :: t) = lower s ++ Byte.lower b :: lower t := List.map_append
  rw [words, hlower, runs_append_cons (by rwa [isWord_lower])]
  rfl

theorem words_cons (hb : Byte.isWord b = false) (t : Text) : words (b :: t) = words t :=
  words_append_cons hb [] t

/-- Words end where a fence begins, and begin where it ends. -/
theorem words_append_fenced (h : sep.isFenced) (s t : Text) :
    words (s ++ sep ++ t) = words s ++ words sep ++ words t := by
  rw [isFenced, Bool.and_eq_true] at h
  cases sep with
  | nil => cases h.1
  | cons b rest =>
    have hb : Byte.isWord b = false := by simpa using h.1
    rw [words_cons hb, List.append_assoc, List.cons_append, words_append_cons hb,
      List.append_assoc]
    refine congrArg (words s ++ ·) ?_
    cases rest using List.reverseRecOn with
    | nil => rfl
    | append_singleton rest c =>
      have hc : Byte.isWord c = false := by
        rw [← List.cons_append, List.getLast?_concat] at h
        simpa using h.2
      rw [List.append_assoc, List.singleton_append, words_append_cons hc, words_append_cons hc]
      exact congrArg (· ++ words t) (List.append_nil _).symm

theorem words_join_fenced (h : sep.isFenced) (p : Text) (ps : List Text) :
    words (join sep (p :: ps)) = words p ++ ps.flatMap fun q => words sep ++ words q := by
  induction ps generalizing p with
  | nil => exact (List.append_nil _).symm
  | cons q ps ih =>
    rw [join_cons_cons, words_append_fenced h, ih, List.flatMap_cons]
    simp only [List.append_assoc]

/-- Where something without words is replaced, the words that are put in come to those of the
    text. -/
theorem length_words_replaceAll (hold : old.isFenced) (hwords : words old = [])
    (hnew : new.isFenced) (t : Text) :
    ∃ n, (0 < n ↔ old <:+: t) ∧
      (words (replaceAll t old new)).length = (words t).length + n * (words new).length := by
  have hne : old ≠ [] := by
    rintro rfl
    cases hold
  obtain ⟨p, ps, hps⟩ := exists_pieces hne t
  refine ⟨ps.length, by rw [hps.infix_iff hne, List.length_cons]; omega, ?_⟩
  have ht : words t = words p ++ ps.flatMap fun q => words old ++ words q := by
    rw [← words_join_fenced hold, hps.join_eq]
  rw [hps.replaceAll_eq hne, words_join_fenced hnew, ht, hwords]
  clear ht hps
  induction ps with
  | nil => simp
  | cons q ps ih =>
    simp only [List.length_append, List.flatMap_cons, List.nil_append, List.length_cons,
      Nat.add_mul, Nat.one_mul] at ih ⊢
    omega

/-! ## Canonical forms -/

/-- Small letters do not change what words are. -/
theorem words_eq_map_tokens (t : Text) : words t = (tokens t).map lower := by
  have hword : Byte.isWord ∘ Byte.lower = Byte.isWord := funext isWord_lower
  rw [words, lower, runs_map, hword]
  rfl

/-- A canonical form has the words of its statement. -/
theorem words_canonical (t : Text) : words (canonical t) = words t := by
  have hwords : ∀ w ∈ words t, w.IsWord := fun w hw => isWord_of_mem_tokens hw
  calc words (canonical t) = (words t).map lower := by
        rw [words_eq_map_tokens, canonical, tokens_join hwords]
    _ = words t := by
        rw [words_eq_map_tokens, List.map_map]
        exact List.map_congr_left fun w _ => lower_lower w

theorem canonical_inj : canonical s = canonical t ↔ words s = words t :=
  ⟨fun h => by rw [← words_canonical, h, words_canonical], fun h => by rw [canonical, h, canonical]⟩

end Reasoning.Text
