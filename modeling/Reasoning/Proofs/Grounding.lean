/-
  The proofs of all engines are grounded.

  Every engine computes the numbers that its steps rest on from the places of premises,
  detections, operators and verdicts.

  * `Modal.accepted_proof`, `Probability.accepted_proof`, `Quantum.Findings.accepted_proof`,
    `Decision.Ranking.accepted_proof`, `CrossDomainSolution.accepted_proof`,
    `Classical.accepted_reason`, `Classical.accepted_validateArgument`: one for each place where
    a ledger is written;
  * `Engine.ledgers_grounded`: what an attempt to add a step does to a ledger, and that no step
    of an engine could have been refused.
-/
import Reasoning.Engine
import Reasoning.Proofs.Audit
import Reasoning.Proofs.Budget
import Reasoning.Proofs.Growth

namespace Reasoning

open Ledger

/-- The lines that most proofs begin with. -/
theorem Proposition.reaches_given (ps : List Proposition) :
    (ps.foldl (fun l p => l.push .premise p.text "given" p.certainty []) Ledger.empty).Reaches
      ps.length := by
  rw [← Nat.zero_add ps.length]
  exact Accepted.empty.reaches.foldl_push (fun _ => []) (fun l p => ⟨_, _, _, _, rfl⟩) (by simp)

section
variable {m n i r : Nat}

/-- The numbers of the first lines. -/
theorem bounds_of_mem_range (hr : r ∈ List.range' 1 n) : 0 < r ∧ r ≤ n := by
  rw [List.mem_range'_1] at hr
  omega

/-- The number of a line that comes so many lines after the first ones. -/
theorem bounds_of_mem_line (hi : i < m) (hr : r ∈ [n + i + 1]) : 0 < r ∧ r ≤ n + m := by
  simp only [List.mem_singleton] at hr
  omega

end

/-! ## Modal reasoning -/

namespace Modal

/-- An operator is detected on one of the premises, if there are any. -/
theorem premise_lt {input : Text} {os : List ModalOperator} {ps : List Proposition}
    {d : Detection} (hd : d ∈ Detection.detect input os ps) (hps : ps ≠ []) :
    d.premise < ps.length := by
  obtain ⟨o, -, ho⟩ := List.mem_filterMap.1 (List.mem_mergeSort.1 hd)
  obtain ⟨⟨position, trigger⟩, -, rfl⟩ := Option.map_eq_some_iff.1 ho
  show (List.findIdx? _ ps).getD 0 < _
  cases hi : ps.findIdx? fun p => Detection.triggers? trigger p.text with
  | none => exact List.length_pos_iff.2 hps
  | some i => exact (List.findIdx?_eq_some_iff_getElem.1 hi).1

theorem index_lt {rules : List ModalRule} {ds : List Detection} {a : Application}
    (ha : a ∈ applications rules ds) : a.index < ds.length := by
  obtain ⟨rule, -, h⟩ := List.mem_filterMap.1 ha
  obtain ⟨p, hp, rfl⟩ := Option.map_eq_some_iff.1 h
  exact List.snd_lt_of_mem_zipIdx (List.mem_of_find?_eq_some hp)

theorem accepted_proof {ps : List Proposition} {ds : List Detection} {as : List Application}
    {es : List Evaluation} (hd : ∀ d ∈ ds, d.premise < ps.length)
    (ha : ∀ a ∈ as, a.index < ds.length) (he : es.length = ds.length) :
    (proof ps ds as es).Accepted := by
  suffices h : (proof ps ds as es).Reaches (ps.length + ds.length) from h.accepted
  unfold proof
  refine .foldl (fun e => [ps.length + e.2 + 1]) (.foldl (fun a => [ps.length + a.index + 1])
    (.foldl_push (fun d => [d.premise + 1]) (Proposition.reaches_given ps)
      (fun l d => ⟨_, _, _, _, rfl⟩) ?_) (fun l a => .inr ⟨_, _, _, _, rfl⟩) ?_) ?_ ?_
  · intro d hmem r hr
    have := hd d hmem
    simp only [List.mem_singleton] at hr
    omega
  · exact fun a hmem r hr => bounds_of_mem_line (ha a hmem) hr
  · rintro l ⟨e, i⟩
    dsimp only
    split
    · exact .inr ⟨_, _, _, _, rfl⟩
    · exact .inl rfl
  · intro e hmem r hr
    exact bounds_of_mem_line (he ▸ List.snd_lt_of_mem_zipIdx hmem) hr

theorem accepted_reason (r : Registry) (c : Config) (m : Metrics) (input : Text)
    (context : Json) : (reason r c m input context).1.proof.Accepted := by
  unfold reason
  dsimp only
  split
  · exact .empty
  · rename_i hps
    split
    · exact .empty
    · exact accepted_proof (fun d hd => premise_lt hd (by simpa using hps)) (fun a => index_lt)
        (List.length_map _)

end Modal

/-! ## Probabilistic reasoning -/

namespace Probability

theorem accepted_proof (ps : List Proposition) (e : Estimate) (confidence : Single) :
    (proof ps e confidence).Accepted := by
  unfold proof
  dsimp only
  -- The line of the cue is there in any case, so that there is a last line to rest on.
  split
  · refine Reaches.accepted (.push_last (.push_last (.push (Proposition.reaches_given ps) ?_)))
    exact fun r hr => bounds_of_mem_range hr
  · refine Reaches.accepted (.push_last (.push (Proposition.reaches_given ps) ?_))
    exact fun r hr => bounds_of_mem_range hr

theorem accepted_reason (r : Registry) (m : Metrics) (input : Text) (context : Json) :
    (reason r m input context).1.proof.Accepted := by
  unfold reason
  dsimp only
  split
  · exact .empty
  · exact accepted_proof ..

end Probability

/-! ## Quantum reasoning -/

namespace Quantum

theorem index_lt_of_mem_outcomes {c : Config} {os : List QuantumOperator} {ss : List QuantumState}
    {o : Outcome} (ho : o ∈ outcomes c os ss) : o.index < os.length := by
  obtain ⟨⟨q, i⟩, hq, ho⟩ := List.mem_flatMap.1 ho
  have hi := List.snd_lt_of_mem_zipIdx hq
  dsimp only at ho
  split at ho
  · obtain ⟨s, -, rfl⟩ := List.mem_map.1 ho
    exact hi
  · cases ho

theorem index_lt_of_mem_applications {rules : List QuantumRule} {os : List QuantumOperator}
    {a : Application} (ha : a ∈ applications rules os) : a.index < os.length := by
  obtain ⟨rule, -, h⟩ := List.mem_filterMap.1 ha
  obtain ⟨p, hp, rfl⟩ := Option.map_eq_some_iff.1 h
  exact List.snd_lt_of_mem_zipIdx (List.mem_of_find?_eq_some hp)

namespace Findings

variable {f : Findings}

theorem reaches_steps (ho : ∀ o ∈ f.outcomes, o.index < f.operators.length)
    (ha : ∀ a ∈ f.applications, a.index < f.operators.length) :
    f.steps.Reaches (f.premises.length + f.operators.length) := by
  unfold steps
  refine .foldl (fun a => [f.premises.length + a.index + 1])
    (.foldl (fun o => [f.premises.length + o.index + 1])
      (.foldl_push (fun _ => List.range' 1 f.premises.length)
        (Proposition.reaches_given f.premises) (fun l o => ⟨_, _, _, _, rfl⟩) ?_)
      (fun l o => .inr ⟨_, _, _, _, rfl⟩) ?_) (fun l a => .inr ⟨_, _, _, _, rfl⟩) ?_
  · exact fun o _ r hr => bounds_of_mem_range hr
  · exact fun o hmem r hr => bounds_of_mem_line (ho o hmem) hr
  · exact fun a hmem r hr => bounds_of_mem_line (ha a hmem) hr

theorem accepted_proof (ho : ∀ o ∈ f.outcomes, o.index < f.operators.length)
    (ha : ∀ a ∈ f.applications, a.index < f.operators.length) (confidence : Single) :
    (f.proof confidence).Accepted := by
  refine (reaches_steps ho ha).accepted.push fun r hr => ?_
  split at hr
  · cases hr
  · rename_i h
    have : 0 < f.steps.size := List.length_pos_iff.2 fun he => h (List.isEmpty_iff.2 he)
    simp only [List.mem_singleton] at hr
    omega

end Findings

theorem accepted_reason (r : Registry) (c : Config) (m : Metrics) (input : Text)
    (context : Json) : (reason r c m input context).1.proof.Accepted := by
  unfold reason
  dsimp only
  split
  · exact .empty
  · exact Findings.accepted_proof (fun o => index_lt_of_mem_outcomes)
      (fun a => index_lt_of_mem_applications) _

end Quantum

/-! ## Decisions -/

namespace Decision

theorem firstLargest_lt {xs : List Single} (hxs : xs ≠ []) :
    Verdict.firstLargest xs < xs.length := by
  unfold Verdict.firstLargest
  split
  · rename_i h
    exact absurd (List.zipIdx_eq_nil_iff.1 h) hxs
  · rename_i x rest h
    -- The best pair so far is always one of the numbered numbers.
    have hmem : rest.foldl (fun best y => if best.1 < y.1 then y else best) x ∈ x :: rest := by
      refine List.foldlRecOn rest _ (motive := (· ∈ x :: rest)) (List.mem_cons_self ..) ?_
      intro best hbest y hy
      split
      · exact List.mem_cons_of_mem x hy
      · exact hbest
    rw [← h] at hmem
    exact List.snd_lt_of_mem_zipIdx hmem

/-- The place of the verdict that counts is that of a verdict, or of the line that stands in
    where there are none. -/
theorem winner_lt (vs : List Verdict) : winner vs < max 1 vs.length := by
  by_cases h : vs = []
  · subst h
    decide
  · have := firstLargest_lt (show vs.map (·.confidence) ≠ [] by simpa using h)
    rw [List.length_map] at this
    exact Nat.lt_of_lt_of_le this (Nat.le_max_right ..)

namespace Ranking

/-- The lines up to the choices. -/
theorem reaches_choices (k : Ranking) :
    (k.choices.foldl (fun l c => l.push .inference (describe c) "option" c.confidence
        (List.range' 1 k.premises.length))
      (k.premises.foldl (fun l p => l.push .premise p.text "given" p.certainty [])
        Ledger.empty)).Reaches (k.premises.length + k.choices.length) :=
  (Proposition.reaches_given k.premises).foldl_push (fun _ => List.range' 1 k.premises.length)
    (fun _ _ => ⟨_, _, _, _, rfl⟩) fun _ _ _ hr => bounds_of_mem_range hr

theorem accepted_proof (k : Ranking) (hw : k.winner < max 1 k.verdicts.length) :
    k.proof.Accepted := by
  have h := k.reaches_choices
  unfold proof
  dsimp only
  generalize List.foldl _ _ k.choices = l at h ⊢
  have hseqs : ∀ r ∈ List.range' (k.premises.length + 1) k.choices.length, 0 < r ∧ r ≤ l.size := by
    intro r hr
    have := h.le_size
    rw [List.mem_range'_1] at hr
    omega
  refine Reaches.accepted (.push (n := l.size + max 1 k.verdicts.length) ?_ ?_)
  · split
    · rename_i he
      rw [List.isEmpty_iff.1 he]
      exact h.accepted.reaches.push hseqs
    · rename_i he
      have : 0 < k.verdicts.length := List.length_pos_iff.2 fun hnil => he (List.isEmpty_iff.2 hnil)
      rw [Nat.max_eq_right this]
      exact h.accepted.reaches.foldl_push _ (fun l v => ⟨_, _, _, _, rfl⟩) fun _ _ => hseqs
  · intro r hr
    simp only [List.mem_singleton] at hr
    omega

end Ranking

theorem accepted_reason (r : Registry) (c : Config) (m : Metrics) (input : Text)
    (context : Json) : (reason r c m input context).1.proof.Accepted := by
  unfold reason
  dsimp only
  split
  · exact .empty
  · refine Ranking.accepted_proof _ ?_
    have := winner_lt ((r.decisionRules.items.map fun rule =>
      (rule, rule.decide (choices r c input context) (criteria r input context))).map (·.2))
    rwa [List.length_map] at this

end Decision

/-! ## Reasoning across domains -/

namespace CrossDomainSolution

theorem accepted_proof (s : CrossDomainSolution) : s.proof.Accepted := by
  have hproblem : (Ledger.empty.push .premise s.problem.trim "problem" 1 []).Reaches 1 :=
    Accepted.empty.reaches.push (by simp)
  have hseqs : ∀ r ∈ List.range' 2 s.solutions.length, 0 < r ∧ r ≤ 1 + s.solutions.length := by
    intro r hr
    rw [List.mem_range'_1] at hr
    omega
  unfold proof
  dsimp only
  refine Reaches.accepted (.push (.foldl (fun _ => List.range' 2 s.solutions.length)
    (.foldl_push (fun _ => [1]) hproblem (fun l d => ⟨_, _, _, _, rfl⟩) (by simp))
    (fun l i => .inr ⟨_, _, _, _, rfl⟩) fun _ _ => hseqs) ?_)
  split
  · simp
  · exact hseqs

theorem accepted_reason (r : Registry) (c : Config) (m : Metrics) (input : Text)
    (context : Json) : (reason r c m input context).1.proof.Accepted := by
  unfold reason
  split
  · exact accepted_proof _
  · exact .empty

end CrossDomainSolution

/-! ## Classical reasoning -/

namespace Classical

section
variable {gs : List Given} {run : Run} {r : InferenceRule} {m : RuleMatch}

theorem Run.scored_take (h : run.proof.Scored) : (run.take gs r m).proof.Scored := by
  unfold Run.take
  split
  · exact h
  · dsimp only
    split
    · split <;> exact h.push
    · exact h.push

theorem Run.scored (gs : List Given) (rules : List InferenceRule) :
    (rules.foldl (Run.apply gs) (.start gs)).proof.Scored := by
  refine List.foldlRecOn rules (Run.apply gs) (motive := fun run => run.proof.Scored) ?_
    fun run h r _ => ?_
  · exact List.foldlRecOn gs _ (motive := Scored) scored_empty fun _ h _ _ => h.push
  · unfold Run.apply
    split
    · rename_i ms _
      exact List.foldlRecOn ms (Run.take gs r) (motive := fun run => run.proof.Scored) h
        fun _ h _ _ => scored_take h
    · exact h

theorem Run.scored_conclude (h : run.proof.Scored) : (run.conclude gs).proof.Scored := by
  unfold Run.conclude
  refine List.foldlRecOn gs Concluded.addInstance (motive := fun c => c.proof.Scored) ?_
    fun c h g _ => ?_
  · have hstart : (Concluded.mk run.proof []).proof.Scored := h
    exact List.foldlRecOn run.deduced Concluded.addDeduced
      (motive := fun c => c.proof.Scored) hstart fun _ h _ _ => h.push
  · unfold Concluded.addInstance
    split
    · exact h
    · dsimp only
      split
      · exact h
      · exact h.push

theorem accepted_reason (r : Registry) (c : Config) (m : Metrics) (input : Text)
    (context : Json) : (reason r c m input context).1.proof.Accepted := by
  unfold reason
  dsimp only
  split
  · exact .empty
  · exact ⟨(Run.sound ..).conclude.audited.wellFormed, Run.scored_conclude (Run.scored _ _)⟩

end

/-! ## Checks of arguments -/

namespace Chain

variable {rules : List InferenceRule} {target : Text} {ch : Chain} {r : InferenceRule}
  {m : RuleMatch}

theorem scored_addPremise (h : ch.derivation.Scored) (text : Text) :
    (ch.addPremise text).derivation.Scored := by
  rcases addPremise_cases ch text with ⟨-, he⟩ | ⟨p, -, -, -, he⟩ <;> rw [he]
  · exact h
  · exact h.push

theorem scored_take (h : ch.derivation.Scored) : (ch.take target r m).derivation.Scored := by
  rcases take_cases target r ch m with he | ⟨-, -, he | ⟨-, he⟩⟩ <;> rw [he]
  · exact h
  · exact h.push
  · exact h.push.push

theorem scored_run (h : ch.derivation.Scored) (budget rounds : Nat) :
    (run target rules budget ch rounds).1.derivation.Scored := by
  induction budget generalizing ch rounds with
  | zero => exact h
  | succ budget ih =>
    have hround : (ch.round target rules).derivation.Scored :=
      round_induction (P := fun ch => ch.derivation.Scored) h fun _ _ _ h => scored_take h
    rw [run_succ]
    split
    · exact hround
    · exact ih hround _

end Chain

theorem accepted_validateArgument (r : Registry) (c : Config) (premises : List Text)
    (conclusion : Text) : (validateArgument r c premises conclusion).derivation.Accepted := by
  obtain ⟨start, hstart, -, hs, -⟩ := Chain.sound_premises
    (r.inferenceRules.items.filter takesPart) (Connective.normalize conclusion).canonical premises
  have hscored : start.derivation.Scored := by
    have hempty : Chain.empty.derivation.Scored := scored_empty
    rw [← hstart]
    exact List.foldlRecOn premises Chain.addPremise (motive := fun ch => ch.derivation.Scored)
      hempty fun _ h text _ => Chain.scored_addPremise h text
  have haccepted : start.derivation.Accepted := ⟨hs.derives.wellFormed, hscored⟩
  unfold validateArgument
  dsimp only
  rw [hstart]
  split
  · exact .empty
  · split
    · exact haccepted
    · split
      · exact haccepted.push (by simp)
      · exact ⟨(hs.run c.maxDerivationRounds 0).derives.wellFormed, Chain.scored_run hscored _ _⟩

end Classical

/-! ## All engines -/

namespace Engine

theorem accepted_evaluate (r : Registry) (c : Config) (m : Metrics) (mode : Mode) (input : Text)
    (context : Json) : (evaluate r c m mode input context).1.proof.Accepted := by
  cases mode with
  | classical => exact Classical.accepted_reason ..
  | modal => exact Modal.accepted_reason ..
  | probabilistic => exact Probability.accepted_reason ..
  | quantum => exact Quantum.accepted_reason ..
  | decision => exact Decision.accepted_reason ..
  | crossDomain => exact CrossDomainSolution.accepted_reason ..

/-- **Ledgers hold grounded steps only.**  Whatever is offered to a ledger, its steps are numbered
    in order, every reference is the number of an earlier step and is found under it, and the
    kinds account for all steps; a further attempt adds one step if all its references are such
    numbers, and else is refused for one that is not and changes nothing.  Every proof of every
    engine, and every derivation of an argument, comes of its own steps offered one by one
    without a refusal. -/
theorem ledgers_grounded :
    (∀ attempts : List Attempt, let l := Ledger.empty.offerAll attempts
      l.size ≤ attempts.length ∧
      (∀ i s, l.steps[i]? = some s → s.seq = i + 1) ∧
      (∀ s ∈ l.steps, ∀ r ∈ s.refs, 1 ≤ r ∧ r < s.seq ∧ ∃ t, l.at? r = .ok t ∧ t.seq = r) ∧
      l.count .premise + l.count .inference + l.count .conclusion = l.size ∧
      ∀ a : Attempt,
        ((∀ r ∈ a.refs, 1 ≤ r ∧ r < l.nextSeq) ∧ l.attempt? a = .ok (l.nextSeq, l.offer a) ∧
          (l.offer a).steps = l.steps ++ [⟨l.nextSeq, a.kind, a.content, a.justification,
            Score.clamp a.confidence, a.refs⟩]) ∨
        (∃ r ∈ a.refs, (r = 0 ∨ l.nextSeq ≤ r) ∧ l.attempt? a = .error (.unknownReference r)) ∧
          l.offer a = l) ∧
    (∀ (e : Engine) (mode : Mode) (input : Text) (context : Json),
      let l := (e.reason mode input context).1.proof
      Ledger.empty.appendAll? (l.steps.map .ofStep) = .ok l) ∧
    ∀ (e : Engine) (premises : List Text) (conclusion : Text),
      let l := (e.validateArgument premises conclusion).derivation
      Ledger.empty.appendAll? (l.steps.map .ofStep) = .ok l := by
  refine ⟨fun attempts => ?_, fun e mode input context => ?_, fun e premises conclusion => ?_⟩
  · have h := Accepted.empty.offerAll attempts
    refine ⟨size_offerAll_le attempts, h.wellFormed.numbered, fun s hs r hr => ?_, sum_count _,
      fun a => ?_⟩
    · obtain ⟨hpos, hlt⟩ := h.wellFormed.grounded s hs r hr
      exact ⟨hpos, hlt, h.wellFormed.exists_at? hpos
        (Nat.lt_trans hlt (h.wellFormed.seq_bounds hs).2)⟩
    · rcases offer_cases (Ledger.empty.offerAll attempts) a with ⟨hrefs, hok, he⟩ | hbad
      · exact .inl ⟨hrefs, hok, congrArg Ledger.steps he⟩
      · exact .inr hbad
  · exact (accepted_evaluate ..).appendAll?_steps
  · exact (Classical.accepted_validateArgument ..).appendAll?_steps

end Engine

end Reasoning
