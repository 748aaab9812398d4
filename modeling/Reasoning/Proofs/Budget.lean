/-
  The budget of rounds.

  A check of an argument may begin as many rounds as the configuration allows.  A larger budget
  only goes on where a smaller one was used up, and as every round but the last adds a
  statement, no budget lasts for more than 65 rounds.

  * `Chain.Grows`: one chain goes on from another;
  * `Chain.grows_round`, `Chain.length_round_le`: what a round adds, and where it stops adding;
  * `Chain.run_add`, `Chain.rounds_run_le`: a run in two parts, and the number of its rounds;
  * `validateArgument_mono`: checks of one argument under two budgets.
-/
import Reasoning.Proofs.Argument

namespace Reasoning.Classical

namespace Chain

/-! ## Chains that go on -/

/-- The chain `ch'` goes on from `ch`. -/
structure Grows (ch ch' : Chain) : Prop where
  known : ch.known <+: ch'.known
  steps : ch.derivation.steps <+: ch'.derivation.steps
  derived : ch.derived <+: ch'.derived

variable {rules : List InferenceRule} {target : Text} {ch ch' ch'' : Chain}

theorem Grows.refl (ch : Chain) : ch.Grows ch :=
  ⟨List.prefix_refl _, List.prefix_refl _, List.prefix_refl _⟩

theorem Grows.trans (h : ch.Grows ch') (h' : ch'.Grows ch'') : ch.Grows ch'' :=
  ⟨h.known.trans h'.known, h.steps.trans h'.steps, h.derived.trans h'.derived⟩

theorem grows_derive (ch : Chain) (r : InferenceRule) (m : RuleMatch) :
    ch.Grows (ch.derive r m) :=
  ⟨List.prefix_append .., List.prefix_append .., List.prefix_append ..⟩

theorem grows_conclude (ch : Chain) (statement : Text) : ch.Grows (ch.conclude statement) :=
  ⟨List.prefix_refl _, List.prefix_append .., List.prefix_refl _⟩

theorem grows_take (target : Text) (r : InferenceRule) (ch : Chain) (m : RuleMatch) :
    ch.Grows (ch.take target r m) := by
  rcases take_cases target r ch m with he | ⟨-, -, he | ⟨-, he⟩⟩ <;> rw [he]
  · exact .refl ch
  · exact grows_derive ch r m
  · exact (grows_derive ch r m).trans (grows_conclude _ _)

/-- A match is taken only while there are fewer statements than the limit. -/
theorem length_take_le (target : Text) (r : InferenceRule) (ch : Chain) (m : RuleMatch) :
    (ch.take target r m).known.length ≤ max ch.known.length maxStatements := by
  unfold take
  split
  · exact Nat.le_max_left ..
  · rename_i h
    simp only [Bool.or_eq_true, not_or, decide_eq_true_eq, Nat.not_le] at h
    have hlen : (ch.derive r m).known.length = ch.known.length + 1 := List.length_append
    dsimp only
    split
    · show (ch.derive r m).known.length ≤ _
      omega
    · omega

/-! ## Rounds -/

/-- What every match keeps is kept by a round. -/
theorem round_induction {P : Chain → Prop} (h : P ch)
    (take : ∀ r ch m, P ch → P (ch.take target r m)) : P (ch.round target rules) := by
  refine List.foldlRecOn rules _ (motive := P) h fun ch h r _ => ?_
  unfold Chain.apply
  split
  · exact h
  · split
    · rename_i ms _
      exact List.foldlRecOn ms _ (motive := P) h fun ch h m _ => take r ch m h
    · exact h

theorem grows_round (rules : List InferenceRule) (target : Text) (ch : Chain) :
    ch.Grows (ch.round target rules) :=
  round_induction (.refl ch) fun r ch' m h => h.trans (grows_take target r ch' m)

theorem length_round_le (rules : List InferenceRule) (target : Text) (ch : Chain) :
    (ch.round target rules).known.length ≤ max ch.known.length maxStatements := by
  refine round_induction (P := fun ch' => ch'.known.length ≤ max ch.known.length maxStatements)
    (Nat.le_max_left ..) fun r ch' m h => ?_
  have := length_take_le target r ch' m
  omega

/-! ## Runs -/

/-- A run begins a round, and goes on unless the target is reached or nothing was added. -/
theorem run_succ (rules : List InferenceRule) (target : Text) (budget : Nat) (ch : Chain)
    (rounds : Nat) :
    run target rules (budget + 1) ch rounds =
      if (ch.round target rules).reached ∨
          (ch.round target rules).known.length = ch.known.length then
        (ch.round target rules, rounds + 1)
      else run target rules budget (ch.round target rules) (rounds + 1) := by
  rw [run]
  simp

theorem grows_run (rules : List InferenceRule) (target : Text) (budget : Nat) (ch : Chain)
    (rounds : Nat) : ch.Grows (run target rules budget ch rounds).1 := by
  induction budget generalizing ch rounds with
  | zero => exact .refl ch
  | succ budget ih =>
    rw [run_succ]
    split
    · exact grows_round rules target ch
    · exact (grows_round rules target ch).trans (ih _ _)

/-- A run with a larger budget is the run with the smaller one, or goes on where that one used
    its budget up without reaching the target. -/
theorem run_add (rules : List InferenceRule) (target : Text) (budget more : Nat)
    (hr : ch.reached = false) (rounds : Nat) :
    run target rules (budget + more) ch rounds = run target rules budget ch rounds ∨
    ((run target rules budget ch rounds).1.reached = false ∧
      (run target rules budget ch rounds).2 = rounds + budget ∧
      run target rules (budget + more) ch rounds =
        run target rules more (run target rules budget ch rounds).1 (rounds + budget)) := by
  induction budget generalizing ch rounds with
  | zero => exact .inr ⟨hr, rfl, by rw [Nat.zero_add]; rfl⟩
  | succ budget ih =>
    rw [Nat.succ_add, run_succ, run_succ]
    split
    · exact .inl rfl
    · rename_i hgo
      rw [not_or, Bool.not_eq_true] at hgo
      have hcount : rounds + 1 + budget = rounds + (budget + 1) := by omega
      rw [← hcount]
      exact ih hgo.1 (rounds + 1)

/-- Every round but the last adds a statement, and there is an end to that. -/
theorem rounds_run_le (rules : List InferenceRule) (target : Text) (budget : Nat) (ch : Chain)
    (rounds : Nat) :
    (run target rules budget ch rounds).2 ≤ rounds + (maxStatements - ch.known.length) + 1 := by
  induction budget generalizing ch rounds with
  | zero =>
    show rounds ≤ _
    omega
  | succ budget ih =>
    rw [run_succ]
    split
    · show rounds + 1 ≤ _
      omega
    · rename_i hgo
      rw [not_or] at hgo
      have hgrown := (grows_round rules target ch).known.length_le
      have hlimit := length_round_le rules target ch
      have hrest := ih (ch.round target rules) (rounds + 1)
      omega

end Chain

/-! ## Two budgets -/

/-- **A larger budget of rounds goes on from a smaller one.**  What is derived under the smaller
    budget, and the lines of its derivation, come first under the larger one; an argument that is
    valid is so with the same answer, and so is one whose check did not use its budget up.  No
    check begins more than 65 rounds. -/
theorem validateArgument_mono (r : Registry) {c c' : Config} (premises : List Text)
    (conclusion : Text) (h : c.maxDerivationRounds ≤ c'.maxDerivationRounds) :
    let check := validateArgument r c premises conclusion
    let check' := validateArgument r c' premises conclusion
    check.derived <+: check'.derived ∧
    check.derivation.steps <+: check'.derivation.steps ∧
    check.derivation.steps.filter (·.kind = .inference) <+:
      check'.derivation.steps.filter (·.kind = .inference) ∧
    (check.valid → check'.valid ∧ check' = check) ∧
    (check.rounds < c.maxDerivationRounds → check' = check) ∧
    check.rounds ≤ 65 ∧ check'.rounds ≤ 65 := by
  obtain ⟨more, hmore⟩ := Nat.exists_eq_add_of_le h
  obtain ⟨start, hstart, hr, -⟩ := Chain.sound_premises
    (r.inferenceRules.items.filter takesPart) (Connective.normalize conclusion).canonical premises
  unfold validateArgument
  dsimp only
  rw [hstart, hmore]
  generalize r.inferenceRules.items.filter takesPart = rules
  generalize (Connective.normalize conclusion).canonical = target
  -- Without a run there are no rounds and nothing depends on the budget.
  split
  · simp
  · split
    · simp
    · split
      · simp
      · have hlimit : ∀ budget, (Chain.run target rules budget start 0).2 ≤ 65 := fun budget => by
          have := Chain.rounds_run_le rules target budget start 0
          have : Chain.maxStatements = 64 := rfl
          omega
        rcases Chain.run_add rules target c.maxDerivationRounds more hr 0 with
          he | ⟨hopen, hused, he⟩
        · rw [he]
          simp [hlimit]
        · have hg := Chain.grows_run rules target more
            (Chain.run target rules c.maxDerivationRounds start 0).1 (0 + c.maxDerivationRounds)
          rw [← he] at hg
          refine ⟨hg.derived, hg.steps, hg.steps.filter _, fun hv => ?_, fun hlt => ?_,
            hlimit _, hlimit _⟩
          · rw [hopen] at hv
            cases hv
          · rw [hused, Nat.zero_add] at hlt
            exact absurd hlt (Nat.lt_irrefl _)

/-- An argument that takes two rounds is valid under every larger budget of 64 bits as well. -/
theorem validateArgument_mono_two_rounds :
    let premises := Text.ofStrings ["if a then b", "if b then c", "a"]
    let check (budget : Nat) :=
      validateArgument .seeded { maxDerivationRounds := budget } premises "c"
    ¬ (check 1).valid ∧ (check 2).valid ∧ 2 ≤ UInt64.size - 1 ∧
      check (UInt64.size - 1) = check 2 := by
  intro premises check
  have hvalid : ¬ (check 1).valid ∧ (check 2).valid := by decide +kernel
  have hbudget : ({ maxDerivationRounds := 2 } : Config).maxDerivationRounds ≤
      ({ maxDerivationRounds := UInt64.size - 1 } : Config).maxDerivationRounds := by decide
  obtain ⟨-, -, -, hsame, -⟩ := validateArgument_mono .seeded premises "c" hbudget
  exact ⟨hvalid.1, hvalid.2, hbudget, (hsame hvalid.2).2⟩

end Reasoning.Classical
