/-
  The check of an argument is a proof.

  * `Chain.Sound`: what holds of a chain at any time, and ties the statements that are known to
    the lines of the derivation;
  * `Chain.Sound.take`, `Chain.Sound.round`, `Chain.Sound.run`: a match, a round and a whole
    run keep it;
  * `validateArgument_sound`: a valid argument ends in a premise, in an instance of an axiom,
    or in the last line of a derivation, each line of which follows by a rule.
-/
import Reasoning.Classical.Argument
import Reasoning.Proofs.Inference
import Reasoning.Proofs.Sanity
import Reasoning.Registry.Seed

namespace Reasoning.Classical

namespace Chain

/-- The statements that are known. -/
def texts (ch : Chain) : List Text := ch.known.map (·.proposition.text)

/-- What holds of a chain that started from the premises `kept`. -/
structure Sound (rules : List InferenceRule) (target : Text) (kept : List Text) (ch : Chain) :
    Prop where
  derives : ch.derivation.Derives rules kept ch.derived
  texts : ch.texts = kept ++ ch.derived
  distinct : (ch.texts.map Text.canonical).Nodup
  numbered : ∀ i k, ch.known[i]? = some k → k.seq = i + 1
  /-- Until the target is reached there is one line for each statement known. -/
  lines : ch.reached = false → ch.derivation.steps.map (·.content) = ch.texts
  ongoing : ch.reached = false → ∀ s ∈ ch.derivation.steps, s.kind ≠ .conclusion
  arrived : ch.reached → ∃ last, ch.derived.getLast? = some last ∧ last.canonical = target

variable {rules : List InferenceRule} {target : Text} {kept : List Text} {ch : Chain}
  {r : InferenceRule} {m : RuleMatch} {ms : List RuleMatch} {wss : List (List Text)}

theorem knows_iff {form : Text} : ch.knows form ↔ form ∈ ch.texts.map Text.canonical := by
  unfold knows texts
  rw [List.any_eq_true, List.map_map, List.mem_map]
  simp

theorem not_knows_iff {form : Text} :
    ch.knows form = false ↔ form ∉ ch.texts.map Text.canonical := by
  rw [← knows_iff, Bool.not_eq_true]

theorem length_texts : ch.texts.length = ch.known.length := List.length_map _

/-! ## Statements are added -/

/-- One more statement, with its line. -/
def extend (ch : Chain) (kind : Step.Kind) (why : Text) (x : Single) (refs : List Nat)
    (p : Proposition) : Chain where
  known := ch.known ++ [⟨p, ch.derivation.nextSeq⟩]
  derivation := ch.derivation.push kind p.text why x refs
  derived := if kind = .inference then ch.derived ++ [p.text] else ch.derived
  reached := ch.reached

section
variable {kind : Step.Kind} {why : Text} {x : Single} {refs : List Nat} {p : Proposition}

theorem texts_extend : (ch.extend kind why x refs p).texts = ch.texts ++ [p.text] := by
  rw [texts, extend, List.map_append]
  rfl

theorem Sound.nextSeq_eq (h : Sound rules target kept ch) (hr : ch.reached = false) :
    ch.derivation.nextSeq = ch.known.length + 1 := by
  rw [← length_texts, ← h.lines hr, List.length_map]
  rfl

/-- A new statement with a line that is no conclusion keeps a chain sound. -/
theorem Sound.extend {kept' : List Text} (h : Sound rules target kept ch)
    (hr : ch.reached = false) (hk : ch.knows p.text.canonical = false)
    (hkind : kind ≠ .conclusion)
    (hd : (ch.extend kind why x refs p).derivation.Derives rules kept'
      (ch.extend kind why x refs p).derived)
    (htexts : ch.texts ++ [p.text] = kept' ++ (ch.extend kind why x refs p).derived) :
    Sound rules target kept' (ch.extend kind why x refs p) where
  derives := hd
  texts := texts_extend.trans htexts
  distinct := by
    rw [texts_extend, List.map_append, List.map_singleton, ← List.concat_eq_append]
    exact h.distinct.concat (not_knows_iff.1 hk)
  numbered i k hi := by
    rw [Chain.extend, List.getElem?_append] at hi
    split at hi
    · exact h.numbered i k hi
    · rename_i hge
      obtain ⟨hlt, rfl⟩ := List.getElem?_eq_some_iff.1 hi
      rw [List.length_singleton] at hlt
      rw [List.getElem_singleton]
      show ch.derivation.nextSeq = i + 1
      rw [h.nextSeq_eq hr]
      omega
  lines _ := by
    rw [texts_extend, Chain.extend, Ledger.steps_push, List.map_append, h.lines hr]
    rfl
  ongoing _ s hs := by
    rcases Ledger.mem_steps_push.1 hs with hs | rfl
    · exact h.ongoing hr s hs
    · exact hkind
  arrived ha := by
    rw [Chain.extend, hr] at ha
    cases ha

end

/-! ## Premises -/

/-- A text is left out when it says nothing or is known already, and is a line of its own
    otherwise. -/
theorem addPremise_cases (ch : Chain) (text : Text) :
    (((Connective.normalize text).hasAlnum → ch.knows (Connective.normalize text).canonical) ∧
      ch.addPremise text = ch) ∨
    ∃ p, (Connective.normalize text).hasAlnum ∧
      ch.knows (Connective.normalize text).canonical = false ∧
      p.text = (Connective.normalize text).trim ∧
      ch.addPremise text = ch.extend .premise "given" p.certainty [] p := by
  unfold addPremise
  dsimp only
  rw [Text.hasAlnum_trim, Text.canonical_trim]
  split
  · rename_i h
    refine .inl ⟨fun ha => ?_, rfl⟩
    simpa [ha] using h
  · rename_i h
    rw [Bool.or_eq_true, not_or, Bool.not_eq_true, Bool.not_eq_true, Bool.not_eq_false'] at h
    exact .inr ⟨_, h.1, h.2, rfl, rfl⟩

theorem sound_empty : Sound rules target [] .empty where
  derives := Ledger.derives_empty rules []
  texts := rfl
  distinct := List.nodup_nil
  numbered i k h := by simp [empty] at h
  lines _ := rfl
  ongoing _ s h := by simp [empty, Ledger.empty] at h
  arrived h := by cases h

/-- In a chain that derived nothing all that is known is a premise. -/
theorem Sound.addPremise (h : Sound rules target ch.texts ch) (hr : ch.reached = false)
    (text : Text) :
    Sound rules target (ch.addPremise text).texts (ch.addPremise text) ∧
      (ch.addPremise text).reached = false := by
  rcases addPremise_cases ch text with ⟨-, he⟩ | ⟨p, -, hk, hp, he⟩
  · rw [he]
    exact ⟨h, hr⟩
  · have hd : ch.derived = [] := List.append_right_eq_self.1 h.texts.symm
    rw [he, texts_extend]
    refine ⟨h.extend hr ?_ (by simp) h.derives.push_premise ?_, hr⟩
    · rw [hp, Text.canonical_trim, hk]
    · show ch.texts ++ [p.text] = ch.texts ++ [p.text] ++ ch.derived
      rw [hd, List.append_nil]

/-- The premises of an argument make a sound chain, in which each text that says something is
    known and nothing else. -/
theorem sound_premises (rules : List InferenceRule) (target : Text) (premises : List Text) :
    ∃ ch, premises.foldl Chain.addPremise .empty = ch ∧ ch.reached = false ∧
      Sound rules target ch.texts ch ∧
      (∀ t ∈ ch.texts, ∃ p ∈ premises, t = (Connective.normalize p).trim) ∧
      ∀ p ∈ premises, (Connective.normalize p).hasAlnum →
        ch.knows (Connective.normalize p).canonical := by
  induction premises using List.reverseRecOn with
  | nil => exact ⟨.empty, rfl, rfl, sound_empty, by simp [texts, empty], by simp⟩
  | append_singleton premises text ih =>
    obtain ⟨ch, hch, hr, hs, hfrom, hknown⟩ := ih
    obtain ⟨hs', hr'⟩ := hs.addPremise hr text
    refine ⟨ch.addPremise text, by rw [List.foldl_concat, hch], hr', hs', ?_, ?_⟩
    · intro t ht
      rcases addPremise_cases ch text with ⟨-, he⟩ | ⟨p, -, -, hp, he⟩
      · rw [he] at ht
        obtain ⟨q, hq, hqt⟩ := hfrom t ht
        exact ⟨q, List.mem_append_left _ hq, hqt⟩
      · rw [he, texts_extend] at ht
        rcases List.mem_append.1 ht with ht | ht
        · obtain ⟨q, hq, hqt⟩ := hfrom t ht
          exact ⟨q, List.mem_append_left _ hq, hqt⟩
        · rw [List.mem_singleton.1 ht]
          exact ⟨text, by simp, hp⟩
    · intro q hq ha
      rw [knows_iff]
      rcases addPremise_cases ch text with ⟨hk, he⟩ | ⟨p, -, -, hp, he⟩
      · rw [he, ← knows_iff]
        rcases List.mem_append.1 hq with hq | hq
        · exact hknown q hq ha
        · rw [List.mem_singleton.1 hq] at ha ⊢
          exact hk ha
      · rw [he, texts_extend, List.map_append, List.mem_append]
        rcases List.mem_append.1 hq with hq | hq
        · exact .inl (knows_iff.1 (hknown q hq ha))
        · rw [List.mem_singleton.1 hq, List.map_singleton, hp, Text.canonical_trim]
          exact .inr (List.mem_singleton_self _)

/-! ## Matches -/

/-- A match is left out, or is a line of its own, and the last one when it is the target. -/
theorem take_cases (target : Text) (r : InferenceRule) (ch : Chain) (m : RuleMatch) :
    ch.take target r m = ch ∨
    (ch.reached = false ∧ ch.knows m.conclusion.canonical = false ∧
      (ch.take target r m = ch.derive r m ∨
        m.conclusion.canonical = target ∧
          ch.take target r m = (ch.derive r m).conclude m.conclusion)) := by
  unfold take
  split
  · exact .inl rfl
  · rename_i h
    simp only [Bool.or_eq_true, not_or, Bool.not_eq_true] at h
    refine .inr ⟨h.1.1.1, h.1.1.2, ?_⟩
    dsimp only
    split
    · rename_i ht
      exact .inr ⟨eq_of_beq ht, rfl⟩
    · exact .inl rfl

theorem derive_eq (ch : Chain) (r : InferenceRule) (m : RuleMatch) :
    ∃ p, p.text = m.conclusion ∧ ch.derive r m = ch.extend .inference r.name p.certainty
      ((m.premises.filterMap (ch.known[·]?)).map (·.seq)) p :=
  ⟨_, rfl, rfl⟩

theorem texts_derive : (ch.derive r m).texts = ch.texts ++ [m.conclusion] := by
  obtain ⟨p, hp, he⟩ := derive_eq ch r m
  rw [he, texts_extend, hp]

/-- What a rule finds among statements that are known keeps a chain sound. -/
theorem Sound.derive (h : Sound rules target kept ch) (hr : ch.reached = false)
    (hrule : r ∈ rules) (hw : wss <+: ch.texts.map Text.tokens) (ha : r.apply wss = .ok ms)
    (hm : m ∈ ms) (hk : ch.knows m.conclusion.canonical = false) :
    Sound rules target kept (ch.derive r m) := by
  -- The words of a round may be older than the chain, but places in them are places in it.
  have hlines : ch.derivation.steps.map (fun s => s.content.tokens) =
      ch.texts.map Text.tokens := by
    rw [← h.lines hr, List.map_map]
    rfl
  have hlt : ∀ i ∈ m.premises, i < ch.known.length := fun i hi => by
    have := Nat.lt_of_lt_of_le ((InferenceRule.apply_sound ha hm).2.1 i hi) hw.length_le
    rwa [List.length_map, length_texts] at this
  obtain ⟨p, hp, he⟩ := derive_eq ch r m
  rw [map_filterMap_numbered h.numbered hlt] at he
  obtain ⟨hwf, hinf⟩ := Ledger.infers_push h.derives.wellFormed (hlines ▸ hw) ha hm p.certainty
  rw [he]
  rw [← hp] at hk hwf hinf
  refine h.extend hr hk (by simp) (h.derives.push_inference hwf hrule hinf fun u hu => ?_) ?_
  · obtain ⟨i, -, hi⟩ := List.mem_filterMap.1 hu
    exact h.ongoing hr u (List.mem_of_getElem? hi)
  · rw [h.texts, List.append_assoc]
    rfl

/-- The line that ends a proof is the target. -/
theorem Sound.conclude (h : Sound rules target kept ch) {statement : Text}
    (hs : ch.derived.getLast? = some statement) (ht : statement.canonical = target) :
    Sound rules target kept (ch.conclude statement) where
  derives := by
    have hsize : ch.derivation.size ≠ 0 := fun h0 => by
      have hd := h.derives.derived
      rw [List.eq_nil_of_length_eq_zero h0] at hd
      rw [← hd] at hs
      cases hs
    refine h.derives.push_conclusion fun n hn => ?_
    rw [List.mem_singleton.1 hn]
    exact ⟨Nat.pos_of_ne_zero hsize, Nat.lt_succ_self _⟩
  texts := h.texts
  distinct := h.distinct
  numbered := h.numbered
  lines hr := by cases hr
  ongoing hr := by cases hr
  arrived _ := ⟨statement, hs, ht⟩

theorem Sound.take (h : Sound rules target kept ch) (hrule : r ∈ rules)
    (hw : wss <+: ch.texts.map Text.tokens) (ha : r.apply wss = .ok ms) (hm : m ∈ ms) :
    Sound rules target kept (ch.take target r m) ∧ ch.texts <+: (ch.take target r m).texts := by
  rcases take_cases target r ch m with he | ⟨hr, hk, hd⟩
  · rw [he]
    exact ⟨h, List.prefix_refl _⟩
  · have hs := h.derive hr hrule hw ha hm hk
    have ht : ch.texts <+: (ch.derive r m).texts := by
      rw [texts_derive]
      exact List.prefix_append ..
    rcases hd with he | ⟨htarget, he⟩
    · rw [he]
      exact ⟨hs, ht⟩
    · rw [he]
      exact ⟨hs.conclude List.getLast?_concat htarget, ht⟩

/-! ## Rounds -/

/-- A rule at work on the statements that a round began with. -/
theorem Sound.apply (h : Sound rules target kept ch) (hrule : r ∈ rules)
    (hw : wss <+: ch.texts.map Text.tokens) :
    Sound rules target kept (ch.apply target wss r) ∧
      wss <+: (ch.apply target wss r).texts.map Text.tokens := by
  unfold Chain.apply
  split
  · exact ⟨h, hw⟩
  · split
    · rename_i ms ha
      refine List.foldlRecOn ms (Chain.take target r)
        (motive := fun ch => Sound rules target kept ch ∧ wss <+: ch.texts.map Text.tokens)
        ⟨h, hw⟩ fun ch ⟨h, hw⟩ m hm => ?_
      obtain ⟨h', ht⟩ := h.take hrule hw ha hm
      exact ⟨h', hw.trans (ht.map _)⟩
    · exact ⟨h, hw⟩

theorem Sound.round (h : Sound rules target kept ch) :
    Sound rules target kept (ch.round target rules) := by
  have hw : ch.known.map (fun k => k.proposition.text.tokens) = ch.texts.map Text.tokens := by
    rw [Chain.texts, List.map_map]
    rfl
  refine (List.foldlRecOn rules (Chain.apply target _)
    (motive := fun ch' => Sound rules target kept ch' ∧
      ch.known.map (fun k => k.proposition.text.tokens) <+: ch'.texts.map Text.tokens)
    ⟨h, by rw [hw]⟩ fun ch' ⟨h', hw'⟩ r hr => ?_).1
  exact h'.apply hr hw'

theorem Sound.run (h : Sound rules target kept ch) (budget rounds : Nat) :
    Sound rules target kept (Chain.run target rules budget ch rounds).1 := by
  induction budget generalizing ch rounds with
  | zero => exact h
  | succ budget ih =>
    unfold Chain.run
    dsimp only
    split
    · exact h.round
    · exact ih h.round _

end Chain

/-! ## The check -/

/-- What is derived in a sound chain is derived once, and is none of the premises. -/
theorem Chain.Sound.distinct_derived {rules : List InferenceRule} {target : Text}
    {kept : List Text} {ch : Chain} (h : Chain.Sound rules target kept ch) :
    (ch.derived.map Text.canonical).Nodup ∧
      ∀ d ∈ ch.derived, d.canonical ∉ kept.map Text.canonical := by
  have hnd := h.distinct
  rw [h.texts, List.map_append, List.nodup_append] at hnd
  obtain ⟨-, hdistinct, hdisjoint⟩ := hnd
  exact ⟨hdistinct, fun d hd hk => hdisjoint _ hk _ (List.mem_map_of_mem hd) rfl⟩

/-- **A valid argument is proved.**  Its target is a premise, an instance of an axiom, or the last
    of the statements that the ledger derives from the premises by the rules that take part.  The
    ledger is such a derivation whether the argument is valid or not, and derives no statement
    twice and none that is a premise. -/
theorem validateArgument_sound (r : Registry) (c : Config) (premises : List Text)
    (conclusion : Text) :
    let check := validateArgument r c premises conclusion
    let target := (Connective.normalize conclusion).canonical
    (check.valid →
      (∃ p ∈ premises, (Connective.normalize p).canonical = target) ∨
      (∃ a ∈ r.axioms.items, (Pattern.ofText a.statement).Accepts target.tokens []) ∨
      ∃ last, check.derived.getLast? = some last ∧ last.canonical = target) ∧
    check.derivation.Derives (r.inferenceRules.items.filter takesPart)
      (premises.map fun p => (Connective.normalize p).trim) check.derived ∧
    (check.derived.map Text.canonical).Nodup ∧
    ∀ p ∈ premises, (Connective.normalize p).hasAlnum →
      ∀ d ∈ check.derived, d.canonical ≠ (Connective.normalize p).canonical := by
  dsimp only
  obtain ⟨start, hstart, hr, hs, hfrom, hknown⟩ := Chain.sound_premises
    (r.inferenceRules.items.filter takesPart) (Connective.normalize conclusion).canonical premises
  have hsub : start.texts ⊆ premises.map fun p => (Connective.normalize p).trim := fun t ht => by
    obtain ⟨p, hp, rfl⟩ := hfrom t ht
    exact List.mem_map_of_mem hp
  have hd : start.derived = [] := List.append_right_eq_self.1 hs.texts.symm
  have hderives := hs.derives.mono hsub
  rw [hd] at hderives
  unfold validateArgument
  dsimp only
  rw [hstart]
  split
  · exact ⟨fun h => (by cases h), Ledger.derives_empty _ _, List.nodup_nil, by simp⟩
  · split
    · rename_i hk
      refine ⟨fun _ => .inl ?_, hderives, List.nodup_nil, by simp⟩
      obtain ⟨t, ht, htt⟩ := List.mem_map.1 (Chain.knows_iff.1 hk)
      obtain ⟨p, hp, rfl⟩ := hfrom t ht
      exact ⟨p, hp, by rw [← htt, Text.canonical_trim]⟩
    · split
      · rename_i a ha
        obtain ⟨ham, hacc⟩ := axiomInstance?_accepts ha
        exact ⟨fun _ => .inr (.inl ⟨a, ham, hacc⟩), hderives.push_conclusion (by simp),
          List.nodup_nil, by simp⟩
      · have hrun := hs.run c.maxDerivationRounds 0
        obtain ⟨hdistinct, hnew⟩ := hrun.distinct_derived
        refine ⟨fun hv => .inr (.inr (hrun.arrived hv)), hrun.derives.mono hsub, hdistinct,
          fun p hp ha d hd he => ?_⟩
        exact hnew d hd (he ▸ Chain.knows_iff.1 (hknown p hp ha))

/-- A premise without a letter or a digit is left out, and a rule may derive it. -/
theorem validateArgument_derives_left_out :
    let premises := Text.ofStrings ["___", "if a then ___", "a"]
    let check := validateArgument .seeded {} premises "___"
    check.valid ∧ ∃ p ∈ premises, ∃ d ∈ check.derived, d.canonical = p.canonical := by
  decide +kernel

end Reasoning.Classical
