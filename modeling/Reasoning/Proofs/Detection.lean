/-
  The premise that a detected operator is on.

  An operator is detected by its symbol in front of a parenthesis, or by a whole word.  The premise
  is then looked for by another test, which a symbol of one byte passes as a part of a word.

  * `Detection.BySymbol`, `Detection.ByWord`: what an operator is detected by;
  * `Detection.Mentions`: what a premise has to have, and `Detection.First`: the first that has it;
  * `Detection.first_of_mentions`: a detection points at the first premise that mentions the
    trigger;
  * `Detection.detect_points_iff`: when the premise has the trigger in the form that the operator is
    detected by.
-/
import Reasoning.Extraction
import Reasoning.Proofs.Search
import Reasoning.Registry.Seed

namespace Reasoning.Detection

variable {input trigger t : Text} {o : ModalOperator} {os : List ModalOperator}
  {ps : List Proposition} {d : Detection}

/-! ## Triggers -/

/-- The operator is detected by its ASCII symbol, which is applied in the input. -/
structure BySymbol (input : Text) (d : Detection) : Prop where
  isAscii : d.operator.symbol.isAscii
  position : input.findApplication d.operator.symbol = some d.position

/-- The operator is detected by its name or a keyword, which is a whole word of the input. -/
structure ByWord (input : Text) (d : Detection) : Prop where
  word : d.trigger ∈ d.operator.name :: d.operator.keywords
  position : input.lower.findWord d.trigger.lower = some d.position

instance (input : Text) (d : Detection) : Decidable (d.BySymbol input) :=
  decidable_of_iff (d.operator.symbol.isAscii ∧
      input.findApplication d.operator.symbol = some d.position)
    ⟨fun h => ⟨h.1, h.2⟩, fun h => ⟨h.1, h.2⟩⟩

instance (input : Text) (d : Detection) : Decidable (d.ByWord input) :=
  decidable_of_iff ((d.operator.name :: d.operator.keywords).contains d.trigger ∧
      input.lower.findWord d.trigger.lower = some d.position)
    ⟨fun h => ⟨List.contains_iff_mem.1 h.1, h.2⟩, fun h => ⟨List.contains_iff_mem.2 h.1, h.2⟩⟩

theorem mem_detect : d ∈ detect input os ps ↔ ∃ o ∈ os, ofOperator? input ps o = some d := by
  rw [detect, List.mem_mergeSort, List.mem_filterMap]

theorem foldl_better_eq (t : Nat × Text) (ts : List (Nat × Text)) :
    ts.foldl (fun best u => if u.1 < best.1 then u else best) t = t ∨
      (ts.foldl (fun best u => if u.1 < best.1 then u else best) t).1 < t.1 := by
  refine List.foldlRecOn (motive := fun best => best = t ∨ best.1 < t.1) ts _ (.inl rfl)
    fun best hbest u _ => ?_
  split
  · rename_i hlt
    rcases hbest with rfl | hbest
    · exact .inr hlt
    · exact .inr (Nat.lt_trans hlt hbest)
  · exact hbest

/-- The symbol is the trigger, even where a word stands at the same place. -/
theorem BySymbol.trigger_eq (h : d.BySymbol input) (hd : d ∈ detect input os ps) :
    d.trigger = d.operator.symbol := by
  obtain ⟨o, -, ho⟩ := mem_detect.1 hd
  obtain ⟨⟨position, trigger⟩, ht, rfl⟩ := Option.map_eq_some_iff.1 ho
  obtain ⟨hascii, hposition⟩ := h
  dsimp only at hascii hposition ⊢
  obtain ⟨words, hwords⟩ : ∃ words, triggers input o = (position, o.symbol) :: words := by
    unfold triggers
    dsimp only
    rw [if_pos hascii, hposition]
    exact ⟨_, rfl⟩
  rw [hwords, firstTrigger?, Option.some.injEq] at ht
  rcases foldl_better_eq (position, o.symbol) words with hbest | hbest
  · rw [ht] at hbest
    exact congrArg Prod.snd hbest
  · rw [ht] at hbest
    exact absurd hbest (Nat.lt_irrefl _)

/-! ## Premises -/

/-- The text has the trigger as a whole word in whatever case, or, if the trigger is a single byte
    or not ASCII, has it anywhere. -/
def Mentions (trigger t : Text) : Prop :=
  trigger.lower.StandsIn t.lower ∨ ¬ (trigger.isAscii ∧ 1 < trigger.length) ∧ trigger <:+: t

/-- The premise at the place is the first that mentions the trigger. -/
def First (trigger : Text) (ps : List Proposition) (i : Nat) (p : Proposition) : Prop :=
  ∃ before after, ps = before ++ p :: after ∧ before.length = i ∧ Mentions trigger p.text ∧
    ∀ q ∈ before, ¬ Mentions trigger q.text

/-- The detection points at a premise, and its text is good. -/
def Points (d : Detection) (ps : List Proposition) (good : Text → Prop) : Prop :=
  ∃ p, ps[d.premise]? = some p ∧ good p.text

theorem triggers?_iff (h : trigger.lower.Unbroken) :
    triggers? trigger t ↔ Mentions trigger t := by
  by_cases hnil : trigger = []
  · subst hnil
    have hfind : (Text.find? t []).isSome := Text.isSome_find?_iff.2 (List.nil_infix)
    refine iff_of_true ?_ (.inr ⟨by simp, List.nil_infix⟩)
    simp [triggers?, Text.contains, hfind]
  · have hne : trigger.lower ≠ [] := by simpa [Text.lower] using hnil
    unfold triggers? Mentions Text.contains
    rw [Bool.or_eq_true, Bool.and_eq_true, Text.isSome_findWord_iff hne h, Text.isSome_find?_iff]
    simp [imp_iff_not_or]

/-- The first premise that passes a test, and its place. -/
theorem exists_split {f : Proposition → Bool} (h : ∃ p ∈ ps, f p) :
    ∃ before p after, ps = before ++ p :: after ∧ f p ∧ (∀ q ∈ before, ¬ f q) ∧
      ps.findIdx? f = some before.length := by
  obtain ⟨p, hp⟩ := Option.isSome_iff_exists.1 (List.find?_isSome.2 h)
  obtain ⟨hfp, before, after, rfl, hbefore⟩ := List.find?_eq_some_iff_append.1 hp
  refine ⟨before, p, after, rfl, hfp, fun q hq => by simpa using hbefore q hq, ?_⟩
  have hnone : before.findIdx? f = none :=
    List.findIdx?_eq_none_iff.2 fun q hq => by simpa using hbefore q hq
  rw [List.findIdx?_append, hnone, List.findIdx?_cons, hfp]
  simp

theorem First.unique {i j : Nat} {p q : Proposition} (hp : First trigger ps i p)
    (hq : First trigger ps j q) : p = q := by
  obtain ⟨before, after, rfl, -, hmentions, hbefore⟩ := hp
  obtain ⟨before', after', hsplit, -, hmentions', hbefore'⟩ := hq
  -- If one premise comes before the other, the other is not the first.
  rcases List.append_eq_append_iff.1 hsplit with ⟨mid, rfl, hmid⟩ | ⟨mid, rfl, hmid⟩ <;>
    rcases List.cons_eq_append_iff.1 hmid with ⟨rfl, h⟩ | ⟨mid', rfl, -⟩
  · cases h
    rfl
  · exact absurd hmentions (hbefore' p (by simp))
  · cases h
    rfl
  · exact absurd hmentions' (hbefore q (by simp))

/-- A detection points at the first premise that mentions its trigger. -/
theorem first_of_mentions (hd : d ∈ detect input os ps) (h : d.trigger.lower.Unbroken)
    (hps : ∃ p ∈ ps, Mentions d.trigger p.text) : ∃ p, First d.trigger ps d.premise p := by
  obtain ⟨o, -, ho⟩ := mem_detect.1 hd
  obtain ⟨⟨position, trigger⟩, -, rfl⟩ := Option.map_eq_some_iff.1 ho
  dsimp only at h hps ⊢
  simp only [← triggers?_iff h] at hps
  obtain ⟨before, p, after, hsplit, hp, hbefore, hfind⟩ := exists_split hps
  refine ⟨p, before, after, hsplit, ?_, (triggers?_iff h).1 hp, fun q hq => ?_⟩
  · rw [premiseOf, hfind, Option.getD_some]
  · rw [← triggers?_iff h]
    exact hbefore q hq

/-- Where a premise is good, and good premises mention the trigger, a detection points at a good
    premise just when the first that mentions the trigger is good. -/
theorem points_iff {good : Text → Prop} (hd : d ∈ detect input os ps)
    (h : d.trigger.lower.Unbroken) (hgood : ∀ t, good t → Mentions d.trigger t)
    (hps : ∃ p ∈ ps, good p.text) :
    d.Points ps good ↔ ∀ i p, First d.trigger ps i p → good p.text := by
  obtain ⟨q, hq, hqgood⟩ := hps
  obtain ⟨first, hfirst⟩ := first_of_mentions hd h ⟨q, hq, hgood _ hqgood⟩
  have hat : ps[d.premise]? = some first := by
    obtain ⟨before, after, rfl, hlength, -⟩ := hfirst
    rw [← hlength, List.getElem?_append_right (Nat.le_refl _), Nat.sub_self]
    rfl
  constructor
  · rintro ⟨p, hp, hpgood⟩ i p' hp'
    rw [hat, Option.some.injEq] at hp
    rw [hp'.unique hfirst, hp]
    exact hpgood
  · exact fun hall => ⟨first, hat, hall _ _ hfirst⟩

/-- **Where a detection points.**  Of the premises that mention the trigger it is the first.  So if
    some premise has the trigger in the form that the operator is detected by, the detection points
    at one that does if and only if that first one does; and it always does where the trigger is an
    ASCII word of more than one byte. -/
theorem detect_points_iff (os : List ModalOperator) (input : Text) (context : Json) :
    let ps := (Extraction.extract input context).premises
    ∀ d ∈ detect input os ps, d.trigger.lower.Unbroken →
      (d.BySymbol input → (∃ p ∈ ps, d.operator.symbol.AppliedIn p.text) →
        (d.Points ps d.operator.symbol.AppliedIn ↔
          ∀ i p, First d.operator.symbol ps i p → d.operator.symbol.AppliedIn p.text)) ∧
      (d.ByWord input → (∃ p ∈ ps, d.trigger.lower.StandsIn p.text.lower) →
        (d.Points ps (fun t => d.trigger.lower.StandsIn t.lower) ↔
          ∀ i p, First d.trigger ps i p → d.trigger.lower.StandsIn p.text.lower) ∧
        (d.trigger.isAscii → 1 < d.trigger.length →
          d.Points ps fun t => d.trigger.lower.StandsIn t.lower)) := by
  intro ps d hd h
  constructor
  · intro hsymbol hps
    rw [← hsymbol.trigger_eq hd] at hps ⊢
    exact points_iff hd h (fun t happlied => .inl happlied.standsIn_lower) hps
  · intro _ hps
    have hiff : d.Points ps (fun t => d.trigger.lower.StandsIn t.lower) ↔
        ∀ i p, First d.trigger ps i p → d.trigger.lower.StandsIn p.text.lower :=
      points_iff hd h (fun t => .inl) hps
    refine ⟨hiff, fun hascii hlength => hiff.2 ?_⟩
    rintro i p ⟨-, -, -, -, hstands | ⟨hshort, -⟩, -⟩
    · exact hstands
    · exact absurd ⟨hascii, hlength⟩ hshort

/-! ### Two sentences -/

section
variable {good : Text → Prop} {test : Text → Bool}

/-- Operators are looked at one by one, in whatever order they are detected. -/
theorem exists_detect_iff {test : Detection → Bool} :
    (∃ d ∈ detect input os ps, test d) ↔ ∃ o ∈ os, (ofOperator? input ps o).any test := by
  simp only [mem_detect, Option.any_eq_true]
  grind

theorem exists_good_iff (h : ∀ t, test t ↔ good t) :
    (∃ p ∈ ps, good p.text) ↔ ps.any fun p => test p.text := by
  simp only [← h, List.any_eq_true]

theorem points_iff_any (h : ∀ t, test t ↔ good t) :
    d.Points ps good ↔ ps[d.premise]?.any fun p => test p.text := by
  simp only [Points, ← h, Option.any_eq_true]

end

/-- A symbol and a keyword, both in the second sentence. -/
theorem detect_points_iff_second :
    let os := Registry.seeded.modalOperators.items
    let input := Text.ofString "Rain falls. K(p) must hold."
    let ps := (Extraction.extract input .null).premises
    (∃ d ∈ detect input os ps, d.trigger.lower.Unbroken ∧ d.BySymbol input ∧
      (∃ p ∈ ps, d.operator.symbol.AppliedIn p.text) ∧
      (d.Points ps d.operator.symbol.AppliedIn ↔
        ∀ i p, First d.operator.symbol ps i p → d.operator.symbol.AppliedIn p.text)) ∧
    ∃ d ∈ detect input os ps, d.trigger.lower.Unbroken ∧ d.ByWord input ∧
      (∃ p ∈ ps, d.trigger.lower.StandsIn p.text.lower) ∧
      (d.trigger.isAscii ∧ 1 < d.trigger.length) ∧
      d.Points ps fun t => d.trigger.lower.StandsIn t.lower := by
  intro os input ps
  constructor
  · obtain ⟨d, hd, htest⟩ := exists_detect_iff.2 (show ∃ o ∈ os,
        (ofOperator? input ps o).any fun d => d.trigger.lower.Unbroken ∧ d.BySymbol input ∧
          d.operator.symbol ≠ [] ∧ d.operator.symbol.Unbroken ∧
          ps.any fun p => (p.text.findApplication d.operator.symbol).isSome by decide +kernel)
    obtain ⟨hunbroken, hsymbol, hne, hwhole, happlied⟩ := of_decide_eq_true htest
    have hiff (t : Text) := Text.isSome_findApplication_iff (t := t) hne hwhole
    have happlied := (exists_good_iff hiff).2 happlied
    exact ⟨d, hd, hunbroken, hsymbol, happlied,
      (detect_points_iff os input .null d hd hunbroken).1 hsymbol happlied⟩
  · obtain ⟨d, hd, htest⟩ := exists_detect_iff.2 (show ∃ o ∈ os,
        (ofOperator? input ps o).any fun d => d.trigger.lower.Unbroken ∧ d.ByWord input ∧
          d.trigger.isAscii ∧ 1 < d.trigger.length ∧ d.trigger.lower ≠ [] ∧
          ps.any fun p => (p.text.lower.findWord d.trigger.lower).isSome by decide +kernel)
    obtain ⟨hunbroken, hword, hascii, hlength, hne, hstands⟩ := of_decide_eq_true htest
    have hiff (t : Text) := Text.isSome_findWord_iff (t := t.lower) hne hunbroken
    have hstands := (exists_good_iff hiff).2 hstands
    exact ⟨d, hd, hunbroken, hword, hstands, ⟨hascii, hlength⟩,
      ((detect_points_iff os input .null d hd hunbroken).2 hword hstands).2 hascii hlength⟩

/-- A symbol is taken for a letter of a name, and a keyword for the end of a longer word. -/
theorem detect_points_elsewhere :
    (let os := Registry.seeded.modalOperators.items
      let input := Text.ofString "Kate runs. K(p) holds."
      let ps := (Extraction.extract input .null).premises
      ∃ d ∈ detect input os ps, d.BySymbol input ∧
        (∃ p ∈ ps, d.operator.symbol.AppliedIn p.text) ∧
        ¬ d.Points ps d.operator.symbol.AppliedIn) ∧
    (let os : List ModalOperator := [⟨"N", "lieu", "", 0.5, "", ["là"]⟩]
      let input := Text.ofString "Voilà tout. Il est là."
      let ps := (Extraction.extract input .null).premises
      ∃ d ∈ detect input os ps, d.ByWord input ∧ 1 < d.trigger.length ∧
        (∃ p ∈ ps, d.trigger.lower.StandsIn p.text.lower) ∧
        ¬ d.Points ps fun t => d.trigger.lower.StandsIn t.lower) := by
  constructor
  · intro os input ps
    obtain ⟨d, hd, htest⟩ := exists_detect_iff.2 (show ∃ o ∈ os,
        (ofOperator? input ps o).any fun d => d.BySymbol input ∧
          d.operator.symbol ≠ [] ∧ d.operator.symbol.Unbroken ∧
          (ps.any fun p => (p.text.findApplication d.operator.symbol).isSome) ∧
          ¬ ps[d.premise]?.any fun p => (p.text.findApplication d.operator.symbol).isSome by
            decide +kernel)
    obtain ⟨hsymbol, hne, hwhole, happlied, hother⟩ := of_decide_eq_true htest
    have hiff (t : Text) := Text.isSome_findApplication_iff (t := t) hne hwhole
    exact ⟨d, hd, hsymbol, (exists_good_iff hiff).2 happlied, (points_iff_any hiff).not.2 hother⟩
  · intro os input ps
    obtain ⟨d, hd, htest⟩ := exists_detect_iff.2 (show ∃ o ∈ os,
        (ofOperator? input ps o).any fun d => d.ByWord input ∧ 1 < d.trigger.length ∧
          d.trigger.lower ≠ [] ∧ d.trigger.lower.Unbroken ∧
          (ps.any fun p => (p.text.lower.findWord d.trigger.lower).isSome) ∧
          ¬ ps[d.premise]?.any fun p => (p.text.lower.findWord d.trigger.lower).isSome by
            decide +kernel)
    obtain ⟨hword, hlength, hne, hunbroken, hstands, hother⟩ := of_decide_eq_true htest
    have hiff (t : Text) := Text.isSome_findWord_iff (t := t.lower) hne hunbroken
    exact ⟨d, hd, hword, hlength, (exists_good_iff hiff).2 hstands,
      (points_iff_any hiff).not.2 hother⟩

end Reasoning.Detection
