/-
  A rule that fails is isolated.

  A rule fails on some statements when it has an empty antecedent, or when a match leaves a
  variable of its consequent without words.  Wherever such a rule stands among the others, they
  do as they would without it.

  * `Registry.WithRule`: a registry with one rule more, which registrations leave one rule more;
  * `Run.skip`, `foldl_apply_insert`: what a failing rule changes in a run;
  * `Chain.opened`, `Chain.run_insert`: the statements that rounds begin with, and a chain of
    rounds in all of which a rule fails;
  * `failing_rule_isolated`: answers and checks with and without the rule.
-/
import Reasoning.Proofs.Audit
import Reasoning.Proofs.Registration

namespace Reasoning

/-! ## One rule more -/

namespace Registry

/-- The registry `r'` is `r` with one rule more, anywhere among the others. -/
def WithRule (rule : InferenceRule) (r r' : Registry) : Prop :=
  ∃ rules, r' = { r with inferenceRules := rules } ∧
    ∃ before after, r.inferenceRules.entries = before ++ after ∧
      rules.entries = before ++ (rule.id, rule) :: after

/-- A registration of a new rule adds it at the end. -/
theorem withRule_of_add {rule : InferenceRule} {r r' : Registry}
    (hnew : r.inferenceRules.contains rule.id = false) (h : r.addInferenceRule rule = .ok r') :
    WithRule { rule with confidence := Score.clamp rule.confidence } r r' := by
  have hr : r.Registers (.inferenceRule rule) r' := add_eq_ok_iff.1 h
  cases hr
  refine ⟨_, rfl, r.inferenceRules.entries, [], (List.append_nil _).symm, ?_⟩
  rw [Catalogue.entries_upsert, hnew, if_neg Bool.false_ne_true]

/-- Records of other kinds neither see the rules nor change them. -/
theorem Registers.set_rules {r s : Registry} {x : Record} (h : r.Registers x s)
    (hx : ∀ other, x ≠ .inferenceRule other) (rules : Catalogue InferenceRule) :
    s.inferenceRules = r.inferenceRules ∧
      Registers { r with inferenceRules := rules } x { s with inferenceRules := rules } := by
  cases h
  case inferenceRule => exact absurd rfl (hx _)
  all_goals exact ⟨rfl, by constructor <;> assumption⟩

theorem offer_set_rules (r : Registry) {x : Record} (hx : ∀ other, x ≠ .inferenceRule other)
    (rules : Catalogue InferenceRule) :
    (r.offer x).inferenceRules = r.inferenceRules ∧
      offer { r with inferenceRules := rules } x =
        { r.offer x with inferenceRules := rules } := by
  rcases offer_cases r x with h | ⟨hno, h⟩
  · obtain ⟨hrules, h'⟩ := h.set_rules hx rules
    exact ⟨hrules, offer_eq h'⟩
  · rcases offer_cases { r with inferenceRules := rules } x with h' | ⟨-, h'⟩
    · exact absurd (h'.set_rules hx r.inferenceRules).2 (hno _)
    · exact ⟨by rw [h], by rw [h', h]⟩

/-- Whether a rule is accepted depends on the rule alone. -/
theorem offer_inferenceRule (r : Registry) (rule : InferenceRule) :
    r.offer (.inferenceRule rule) =
      if rule.id ≠ [] ∧ rule.name ≠ [] ∧ rule.antecedents ≠ [] ∧ rule.consequent ≠ [] then
        { r with
          inferenceRules := r.inferenceRules.upsert rule.id
            { rule with confidence := Score.clamp rule.confidence } }
      else r := by
  split
  · rename_i h
    exact offer_eq (.inferenceRule h.1 h.2.1 h.2.2.1 h.2.2.2)
  · rename_i h
    rcases offer_cases r (.inferenceRule rule) with hr | ⟨-, hr⟩
    · generalize r.offer (.inferenceRule rule) = s at hr
      cases hr
      exact absurd ⟨‹_›, ‹_›, ‹_›, ‹_›⟩ h
    · exact hr

/-- A record of another key goes to the same place whether there is one record more or not. -/
theorem upsert_insert {α : Type} {c c' : Catalogue α} {before after : List (Text × α)}
    {k l : Text} {a : α} (hk : l ≠ k) (hc : c.entries = before ++ after)
    (hc' : c'.entries = before ++ (k, a) :: after) (b : α) :
    ∃ before' after', (c.upsert l b).entries = before' ++ after' ∧
      (c'.upsert l b).entries = before' ++ (k, a) :: after' := by
  have hcontains : c'.contains l = c.contains l := by
    rw [Bool.eq_iff_iff, Catalogue.contains_iff, Catalogue.contains_iff, ← c.map_fst_entries,
      ← c'.map_fst_entries, hc, hc']
    simp [hk]
  rw [Catalogue.entries_upsert, Catalogue.entries_upsert, hcontains, hc, hc']
  split
  · refine ⟨_, _, List.map_append, ?_⟩
    rw [List.map_append, List.map_cons, if_neg fun h => hk h.symm]
  · exact ⟨before, after ++ [(l, b)], List.append_assoc .., by simp⟩

/-- A registration leaves one rule more, unless it is one of a rule of the same key. -/
theorem WithRule.offer {rule : InferenceRule} {r r' : Registry} (h : WithRule rule r r')
    {x : Record} (hx : ∀ other, x = .inferenceRule other → other.id ≠ rule.id) :
    WithRule rule (r.offer x) (r'.offer x) := by
  obtain ⟨rules, rfl, before, after, hwithout, hwith⟩ := h
  by_cases hkind : ∃ other, x = .inferenceRule other
  · obtain ⟨other, rfl⟩ := hkind
    rw [offer_inferenceRule, offer_inferenceRule]
    split
    · exact ⟨_, rfl, upsert_insert (hx other rfl) hwithout hwith
        { other with confidence := Score.clamp other.confidence }⟩
    · exact ⟨rules, rfl, before, after, hwithout, hwith⟩
  · obtain ⟨hsame, hoffer⟩ := r.offer_set_rules (fun other he => hkind ⟨other, he⟩) rules
    exact ⟨rules, hoffer, before, after, by rw [hsame, hwithout], hwith⟩

theorem WithRule.addEach {rule : InferenceRule} {r r' : Registry} (h : WithRule rule r r')
    {records : List Record}
    (hlater : ∀ other, .inferenceRule other ∈ records → other.id ≠ rule.id) :
    WithRule rule (r.addEach records) (r'.addEach records) := by
  induction records generalizing r r' with
  | nil => exact h
  | cons x records ih =>
    refine ih (h.offer fun other hx => hlater other ?_) fun other ho => hlater other ?_
    · rw [hx]
      exact List.mem_cons_self ..
    · exact List.mem_cons_of_mem _ ho

/-- The rules themselves, in their order. -/
theorem WithRule.items {rule : InferenceRule} {r r' : Registry} (h : WithRule rule r r') :
    r'.axioms = r.axioms ∧ ∃ before after, r.inferenceRules.items = before ++ after ∧
      r'.inferenceRules.items = before ++ rule :: after := by
  obtain ⟨rules, rfl, before, after, hwithout, hwith⟩ := h
  refine ⟨rfl, before.map (·.2), after.map (·.2), ?_, ?_⟩
  · rw [← Catalogue.map_snd_entries, hwithout, List.map_append]
  · rw [← Catalogue.map_snd_entries, hwith, List.map_append, List.map_cons]

end Registry

namespace InferenceRule

/-- The rule cannot be applied to some statements. -/
def FailsOn (rule : InferenceRule) (wss : List (List Text)) : Prop := ∃ f, rule.apply wss = .error f

instance (rule : InferenceRule) (wss : List (List Text)) : Decidable (rule.FailsOn wss) :=
  match h : rule.apply wss with
  | .error f => isTrue ⟨f, h⟩
  | .ok _ => isFalse fun ⟨_, hf⟩ => by rw [h] at hf; cases hf

/-- How confident a rule is makes no difference to where it applies. -/
theorem failsOn_confidence {rule : InferenceRule} {x : Single} {wss : List (List Text)} :
    FailsOn { rule with confidence := x } wss ↔ rule.FailsOn wss := Iff.rfl

end InferenceRule

theorem Metrics.addRulesSkipped_add (m : Metrics) (n k : Nat) :
    m.addRulesSkipped (n + k) = (m.addRulesSkipped n).addRulesSkipped k := by
  have hsum : (n + k).toUInt64 = n.toUInt64 + k.toUInt64 := UInt64.ofNat_add n k
  unfold Metrics.addRulesSkipped
  rw [hsum, ← UInt64.add_assoc]

namespace Classical

/-! ## Answers -/

/-- The run with one skipped rule more. -/
def Run.skip (run : Run) : Run := { run with skipped := run.skipped + 1 }

section
variable {gs : List Given} {rule : InferenceRule}

theorem Run.take_skip (r : InferenceRule) (run : Run) (m : RuleMatch) :
    run.skip.take gs r m = (run.take gs r m).skip := by
  unfold Run.take
  split
  · rfl
  · dsimp only
    split
    · rw [apply_ite Run.skip]
      rfl
    · rfl

theorem Run.apply_skip (run : Run) (r : InferenceRule) :
    run.skip.apply gs r = (run.apply gs r).skip := by
  unfold Run.apply
  split
  · exact List.foldl_hom Run.skip fun run m => Run.take_skip r run m
  · rfl

theorem Run.apply_of_failsOn (h : rule.FailsOn (gs.map (·.words))) (run : Run) :
    run.apply gs rule = run.skip := by
  obtain ⟨f, hf⟩ := h
  unfold Run.apply
  rw [hf]
  rfl

/-- Among the other rules one that fails is skipped, and changes nothing else. -/
theorem Run.foldl_apply_insert (h : rule.FailsOn (gs.map (·.words)))
    (before after : List InferenceRule) (run : Run) :
    (before ++ rule :: after).foldl (Run.apply gs) run =
      ((before ++ after).foldl (Run.apply gs) run).skip := by
  rw [List.foldl_append, List.foldl_cons, Run.apply_of_failsOn h, List.foldl_append]
  exact List.foldl_hom Run.skip Run.apply_skip

end

/-- With a rule that fails on the premises an answer is the same, and where there are premises
    one more rule is counted as skipped. -/
theorem reason_withRule {rule : InferenceRule} {r r' : Registry} (h : r.WithRule rule r')
    (c : Config) (m : Metrics) (input : Text) (context : Json)
    (hf : rule.FailsOn ((Extraction.extract input context).premises.map (·.text.tokens))) :
    (reason r' c m input context).1 = (reason r c m input context).1 ∧
    (reason r' c m input context).2 =
      if (Extraction.extract input context).premises = [] then (reason r c m input context).2
      else (reason r c m input context).2.addRulesSkipped 1 := by
  obtain ⟨haxioms, before, after, hwithout, hwith⟩ := h.items
  unfold reason
  generalize Extraction.extract input context = ex at hf
  have hwords := (words_givens r.axioms.items ex.premises).trans List.map_map
  dsimp only
  split
  · rename_i hempty
    rw [if_pos (List.isEmpty_iff.1 hempty)]
    exact ⟨rfl, rfl⟩
  · rename_i hsome
    rw [if_neg fun h => hsome (List.isEmpty_iff.2 h), haxioms, hwith, hwithout,
      Run.foldl_apply_insert (hwords ▸ hf)]
    refine ⟨rfl, ?_⟩
    show Metrics.call (Metrics.addRulesSkipped _ (_ + 1)) _ _ _ = _
    rw [Metrics.addRulesSkipped_add]
    rfl

/-! ## Checks of arguments -/

namespace Chain

/-- The words of the statements that are known. -/
def statements (ch : Chain) : List (List Text) := ch.known.map fun k => k.proposition.text.tokens

/-- The statements that the rounds of a run begin with. -/
def opened (target : Text) (rules : List InferenceRule) : Nat → Chain → List (List (List Text))
  | 0, _ => []
  | budget + 1, ch =>
    let next := ch.round target rules
    ch.statements ::
      if next.reached || next.known.length == ch.known.length then []
      else opened target rules budget next

variable {rule : InferenceRule} {target : Text} {before after : List InferenceRule} {ch : Chain}

/-- A rule that fails on the statements of a round adds nothing to it. -/
theorem round_insert (h : rule.FailsOn ch.statements) :
    ch.round target (before ++ rule :: after) = ch.round target (before ++ after) := by
  obtain ⟨f, hf⟩ := h
  have hstay : ∀ ch', apply target ch.statements ch' rule = ch' := fun ch' => by
    unfold apply
    rw [hf]
    split <;> rfl
  show (before ++ rule :: after).foldl (apply target ch.statements) ch =
    (before ++ after).foldl (apply target ch.statements) ch
  rw [List.foldl_append, List.foldl_cons, hstay, List.foldl_append]

/-- A rule that fails in every round adds nothing to a run. -/
theorem run_insert {budget rounds : Nat}
    (h : ∀ wss ∈ opened target (before ++ rule :: after) budget ch, rule.FailsOn wss) :
    run target (before ++ rule :: after) budget ch rounds =
      run target (before ++ after) budget ch rounds := by
  induction budget generalizing ch rounds with
  | zero => rfl
  | succ budget ih =>
    unfold opened at h
    rw [List.forall_mem_cons] at h
    obtain ⟨hround, hrest⟩ := h
    unfold run
    dsimp only at hrest ⊢
    rw [round_insert hround] at hrest ⊢
    split
    · rfl
    · rename_i hgo
      rw [if_neg hgo] at hrest
      exact ih hrest

end Chain

/-- The statements that the rounds of a check begin with.  A check that is settled before has no
    rounds. -/
def roundStatements (r : Registry) (c : Config) (premises : List Text) (conclusion : Text) :
    List (List (List Text)) :=
  let target := (Connective.normalize conclusion).canonical
  let start := premises.foldl Chain.addPremise .empty
  if target.isEmpty then []
  else if start.knows target then []
  else match axiomInstance? target.tokens r.axioms.items with
    | some _ => []
    | none =>
      start.opened target (r.inferenceRules.items.filter takesPart) c.maxDerivationRounds

/-- With a rule that fails in every round a check is the same. -/
theorem validateArgument_withRule {rule : InferenceRule} {r r' : Registry}
    (h : r.WithRule rule r') (c : Config) (premises : List Text) (conclusion : Text)
    (hf : ∀ wss ∈ roundStatements r' c premises conclusion, rule.FailsOn wss) :
    validateArgument r' c premises conclusion = validateArgument r c premises conclusion := by
  obtain ⟨haxioms, before, after, hwithout, hwith⟩ := h.items
  unfold roundStatements at hf
  unfold validateArgument
  dsimp only at hf ⊢
  rw [haxioms, hwith] at hf
  rw [haxioms, hwith, hwithout]
  split
  · rfl
  · rename_i htarget
    rw [if_neg htarget] at hf
    split
    · rfl
    · rename_i hknown
      rw [if_neg hknown] at hf
      split
      · rfl
      · rename_i hno
        rw [hno] at hf
        dsimp only at hf
        rw [List.filter_append, List.filter_cons] at hf
        rw [List.filter_append, List.filter_cons, List.filter_append]
        split
        · rename_i hpart
          rw [if_pos hpart] at hf
          rw [Chain.run_insert hf]
        · rfl

/-! ## With and without the rule -/

/-- **A rule that fails is isolated.**  A rule of a new key is registered, and others after it.
    Where it fails on the premises of an input, the answer is the one that is given without it;
    the metrics differ in one more skipped rule, or in nothing when the input has no premises and
    no rule is tried.  Where it fails in every round of a check, so is the check. -/
theorem failing_rule_isolated {r r' : Registry} {rule : InferenceRule} {later : List Record}
    (hnew : r.inferenceRules.contains rule.id = false) (hadd : r.addInferenceRule rule = .ok r')
    (hlater : ∀ other, .inferenceRule other ∈ later → other.id ≠ rule.id) :
    (∀ c m input context,
      rule.FailsOn ((Extraction.extract input context).premises.map (·.text.tokens)) →
      (reason (r'.addEach later) c m input context).1 =
        (reason (r.addEach later) c m input context).1 ∧
      (reason (r'.addEach later) c m input context).2 =
        if (Extraction.extract input context).premises = [] then
          (reason (r.addEach later) c m input context).2
        else (reason (r.addEach later) c m input context).2.addRulesSkipped 1) ∧
    ∀ c premises conclusion,
      (∀ wss ∈ roundStatements (r'.addEach later) c premises conclusion, rule.FailsOn wss) →
      validateArgument (r'.addEach later) c premises conclusion =
        validateArgument (r.addEach later) c premises conclusion := by
  have h := (Registry.withRule_of_add hnew hadd).addEach hlater
  refine ⟨fun c m input context hf => ?_, fun c premises conclusion hf => ?_⟩
  · exact reason_withRule h c m input context (InferenceRule.failsOn_confidence.2 hf)
  · exact validateArgument_withRule h c premises conclusion fun wss hw =>
      InferenceRule.failsOn_confidence.2 (hf wss hw)

/-- A rule whose consequent has a variable that no match binds. -/
def unboundRule : InferenceRule :=
  ⟨"loose", "Loose", .deduction, ["if P then Q"], "R", 0.5, []⟩

/-- A rule with an antecedent that says nothing. -/
def blankRule : InferenceRule := ⟨"blank", "Blank", .deduction, ["?"], "Q", 0.5, []⟩

/-- The rule without words for its consequent fails on two premises and in every round of a
    check, with another rule registered after it. -/
theorem failing_rule_isolated_unbound :
    let input : Text := "If it rains, then the road is wet. It rains."
    let premises := Text.ofStrings ["If it rains, then the road is wet", "It rains"]
    let loose := Registry.seeded.offer (.inferenceRule unboundRule)
    let later := [Record.inferenceRule blankRule]
    Registry.seeded.addInferenceRule unboundRule = .ok loose ∧
      unboundRule.FailsOn ((Extraction.extract input .null).premises.map (·.text.tokens)) ∧
      (reason (loose.addEach later) {} .empty input .null).1 =
        (reason (Registry.seeded.addEach later) {} .empty input .null).1 ∧
      (reason (loose.addEach later) {} .empty input .null).2 =
        (reason (Registry.seeded.addEach later) {} .empty input .null).2.addRulesSkipped 1 ∧
      (∀ wss ∈ roundStatements (loose.addEach later) {} premises "the road is dry",
        unboundRule.FailsOn wss) ∧
      validateArgument (loose.addEach later) {} premises "the road is dry" =
        validateArgument (Registry.seeded.addEach later) {} premises "the road is dry" := by
  intro input premises loose later
  have hadd : Registry.seeded.addInferenceRule unboundRule = .ok loose := Registry.add_eq_offer
    (Registry.Registers.inferenceRule (by decide) (by decide) (by decide) (by decide))
  have hlater : ∀ other, .inferenceRule other ∈ later → other.id ≠ unboundRule.id := by
    simp only [later, List.mem_singleton, Record.inferenceRule.injEq, forall_eq]
    decide
  obtain ⟨hanswer, hcheck⟩ := failing_rule_isolated (by decide +kernel) hadd hlater
  have hfails : unboundRule.FailsOn
      ((Extraction.extract input .null).premises.map (·.text.tokens)) := by decide +kernel
  have hrounds : ∀ wss ∈ roundStatements (loose.addEach later) {} premises "the road is dry",
      unboundRule.FailsOn wss := by decide +kernel
  obtain ⟨hresult, hmetrics⟩ := hanswer {} .empty input .null hfails
  exact ⟨hadd, hfails, hresult, hmetrics.trans (if_neg (by decide +kernel)), hrounds,
    hcheck {} premises "the road is dry" hrounds⟩

/-- Without premises a rule with an empty antecedent fails all the same, but is not counted. -/
theorem failing_rule_uncounted :
    let blank := Registry.seeded.offer (.inferenceRule blankRule)
    Registry.seeded.inferenceRules.contains blankRule.id = false ∧
      Registry.seeded.addInferenceRule blankRule = .ok blank ∧
      blankRule.FailsOn ((Extraction.extract [] .null).premises.map (·.text.tokens)) ∧
      (reason blank {} .empty [] .null).2 ≠
        (reason .seeded {} .empty [] .null).2.addRulesSkipped 1 := by
  refine ⟨by decide +kernel, ?_, by decide +kernel, by decide +kernel⟩
  exact Registry.add_eq_offer
    (Registry.Registers.inferenceRule (by decide) (by decide) (by decide) (by decide))

end Classical

end Reasoning
