/-
  Transfers that are repeated.

  A transfer that succeeds leaves a mapping, which the next transfer finds.  It finds there what it
  would have chosen, at the place where it would have chosen it, so it comes out as before.

  * `TransferPlan.candidate_withCopies`, `pairing_withCopies`: with copies of the mapping of one
    of its own pairs a pairing stays as it is;
  * `Transfer.of_withCopies`: and so does the transfer;
  * `Engine.transfer_repeated`: a transfer that is repeated among requests that only ask.
-/
import Mathlib.Data.List.Nodup
import Reasoning.Proofs.Transfer

namespace Reasoning

/-! ## With copies of a mapping -/

namespace TransferPlan

/-- The plan with so many copies of a mapping more. -/
def withCopies (plan : TransferPlan) (n : Nat) (m : Mapping) : TransferPlan :=
  { plan with mappings := plan.mappings ++ List.replicate n m }

variable {plan : TransferPlan} {m : Mapping} {p : Pairing} {concept : Text}
  {concepts : List Text}

/-- An older mapping goes before the copies, which apply to the concept of the mapping alone. -/
theorem established?_withCopies (plan : TransferPlan) (n : Nat) (m : Mapping) (p : Pairing)
    (concept : Text) :
    (plan.withCopies n m).established? p concept = plan.established? p concept ∨
    (plan.withCopies n m).established? p concept = some m ∧
      m.sourceConcept.lower = concept.lower := by
  cases h : (plan.withCopies n m).established? p concept with
  | none =>
    have hnone := List.find?_eq_none.1 h
    exact .inl (List.find?_eq_none.2 fun m hm => hnone m (List.mem_append_left _ hm)).symm
  | some new =>
    have hfound := h
    rw [established?, withCopies, List.find?_append, Option.or_eq_some_iff] at hfound
    rcases hfound with hold | ⟨-, hcopy⟩
    · exact .inl hold.symm
    · have happlies := List.find?_some hcopy
      obtain rfl : new = m := List.eq_of_mem_replicate (List.mem_of_find?_eq_some hcopy)
      simp only [Bool.and_eq_true, beq_iff_eq] at happlies
      exact .inr ⟨rfl, happlies.1.1.2⟩

theorem candidate_of_established? (h : plan.established? p concept = some m)
    (htarget : m.targetConcept ≠ []) :
    plan.candidate p concept = ⟨m.targetConcept, m.similarity⟩ := by
  unfold candidate
  rw [h]
  dsimp only
  rw [if_neg (by simpa using htarget)]

/-- A candidate stays the same, both where the mapping does not apply and where it leads to the
    candidate itself. -/
theorem candidate_withCopies (n : Nat)
    (h : concept.lower ≠ m.sourceConcept.lower ∨
      plan.candidate p concept = ⟨m.targetConcept, m.similarity⟩ ∧ m.targetConcept ≠ []) :
    (plan.withCopies n m).candidate p concept = plan.candidate p concept := by
  rcases established?_withCopies plan n m p concept with hsame | ⟨hcopy, hlower⟩
  · unfold candidate
    rw [hsame]
    rfl
  · rcases h with h | ⟨hcandidate, htarget⟩
    · exact absurd hlower.symm h
    · rw [hcandidate, candidate_of_established? hcopy htarget]

/-- In a list whose elements differ after folding their case there is one place only where an
    element can stand. -/
theorem split_unique {before before' after after' : List Text} {a b : Text}
    (hnodup : ((before ++ a :: after).map Text.lower).Nodup)
    (h : before ++ a :: after = before' ++ b :: after') (hab : a.lower = b.lower) :
    before = before' ∧ a = b := by
  have ha : a ∈ before ++ a :: after := by simp
  have hb : b ∈ before ++ a :: after := by simp [h]
  obtain rfl : a = b := List.inj_on_of_nodup_map hnodup ha hb hab
  have hnot := List.nodup_middle.1 (hnodup.of_map _)
  rw [List.nodup_cons, List.mem_append, not_or] at hnot
  exact ⟨((List.append_cons_inj_of_notMem hnot.1.1 hnot.1.2).1 h).1, rfl⟩

/-- With copies of the mapping of one of its own pairs a pairing stays as it is. -/
theorem pairing_withCopies (n : Nat) (hnodup : (concepts.map Text.lower).Nodup)
    (hm : plan.Makes concepts ⟨m.sourceConcept, m.targetConcept, m.similarity⟩) :
    (plan.withCopies n m).pairing concepts = plan.pairing concepts := by
  obtain ⟨made, rest, hconcepts, hcandidate, htarget, -⟩ := hm
  suffices h : ∀ before after, concepts = before ++ after →
      (plan.withCopies n m).pairing before = plan.pairing before from
    h concepts [] (List.append_nil _).symm
  intro before
  induction before using List.reverseRecOn with
  | nil => exact fun _ _ => rfl
  | append_singleton before concept ih =>
    intro after hsplit
    rw [List.append_assoc, List.singleton_append] at hsplit
    rw [pairing_concat, pairing_concat, ih _ hsplit]
    have hsame : (plan.withCopies n m).candidate (plan.pairing before) concept =
        plan.candidate (plan.pairing before) concept := by
      by_cases hlower : concept.lower = m.sourceConcept.lower
      · rw [hsplit] at hnodup hconcepts
        obtain ⟨rfl, rfl⟩ := split_unique hnodup hconcepts hlower
        exact candidate_withCopies n (.inr ⟨hcandidate, htarget⟩)
      · exact candidate_withCopies n (.inl hlower)
    unfold step
    rw [hsame]
    rfl

end TransferPlan

/-- The registry with so many copies of a mapping more. -/
def Registry.withCopies (r : Registry) (n : Nat) (m : Mapping) : Registry :=
  { r with mappings := r.mappings ++ List.replicate n m }

namespace Transfer

variable {r : Registry} {c : Config} {fromName toName : Text} {knowledge : Json} {m : Mapping}

theorem plan_withCopies (r : Registry) (c : Config) (source target : Domain)
    (fromName toName : Text) (knowledge : Json) (n : Nat) (m : Mapping) :
    plan (r.withCopies n m) c source target fromName toName knowledge =
      (plan r c source target fromName toName knowledge).withCopies n m :=
  rfl

theorem pairs_withCopies {source target : Domain} (n : Nat)
    (hdistinct : ((KnowledgeStructure.ofJson knowledge).concepts.map Text.lower).Nodup)
    (hpair : ⟨m.sourceConcept, m.targetConcept, m.similarity⟩ ∈
      (pairs r c source target fromName toName knowledge).pairs) :
    pairs (r.withCopies n m) c source target fromName toName knowledge =
      pairs r c source target fromName toName knowledge := by
  have hmakes : (plan r c source target fromName toName knowledge).Makes
      (KnowledgeStructure.ofJson knowledge).concepts
      ⟨m.sourceConcept, m.targetConcept, m.similarity⟩ :=
    TransferPlan.makes_of_mem_pairs hpair
  unfold pairs
  rw [plan_withCopies]
  exact TransferPlan.pairing_withCopies n hdistinct hmakes

/-- With copies of its own mapping a transfer comes out as before. -/
theorem of_withCopies (n : Nat) (hr : r.WellFormed)
    (hsuccess : (Transfer.of r c fromName toName knowledge).success = true)
    (hdistinct : ((KnowledgeStructure.ofJson knowledge).concepts.map Text.lower).Nodup)
    (hm : (Transfer.of r c fromName toName knowledge).mapping = some m) :
    Transfer.of (r.withCopies n m) c fromName toName knowledge =
      Transfer.of r c fromName toName knowledge := by
  obtain ⟨source, target, m', hfeasible, hm', hpair, -⟩ := of_success hr hsuccess
  obtain rfl : m' = m := Option.some.inj (hm'.mapping.symm.trans hm)
  -- The domains are the same, only the known mappings are not.
  have hfeasible' : Feasible (r.withCopies n m') fromName toName knowledge source target :=
    ⟨hfeasible.source, hfeasible.target, hfeasible.concepts⟩
  rw [of_eq_ofPairing hfeasible', of_eq_ofPairing hfeasible, pairs_withCopies n hdistinct hpair]

end Transfer

namespace Engine

/-! ## Sessions of repeated transfers -/

theorem session_cons (e : Engine) (q : Request) (requests : List Request) :
    e.session (q :: requests) =
      ((e.answer q).1 :: ((e.answer q).2.session requests).1,
        ((e.answer q).2.session requests).2) :=
  rfl

section
variable {r : Registry} {c : Config} {source target : Text} {knowledge : Json} {t : Transfer}
  {m : Mapping} {requests : List Request} {e : Engine} {n : Nat}

/-- One request: a transfer is answered as ever and adds a copy, others leave the registry. -/
theorem answer_withCopies
    (hsame : ∀ n, Transfer.of (r.withCopies n m) c source target knowledge = t)
    (hcopy : ∀ n, t.recordMapping (r.withCopies n m) = r.withCopies (n + 1) m) {q : Request}
    (hq : q.isQuery ∨ q = .transfer source target knowledge)
    (hregistry : e.registry = r.withCopies n m) (hconfig : e.config = c) :
    (q = .transfer source target knowledge → (e.answer q).1 = .transfer t) ∧
    (e.answer q).2.registry = r.withCopies (n + if !q.isQuery then 1 else 0) m := by
  by_cases hquery : q.isQuery
  · refine ⟨fun htransfer => ?_, ?_⟩
    · rw [htransfer] at hquery
      cases hquery
    · rw [registry_answer_of_isQuery hquery, hregistry, hquery]
      rfl
  · obtain rfl := hq.resolve_left hquery
    have htransfer : Transfer.of e.registry e.config source target knowledge = t := by
      rw [hregistry, hconfig]
      exact hsame n
    refine ⟨fun _ => congrArg Answer.transfer htransfer, ?_⟩
    show Transfer.recordMapping (Transfer.of e.registry e.config source target knowledge)
      e.registry = _
    rw [htransfer, hregistry]
    exact hcopy n

/-- While a transfer comes out the same and adds the same mapping, a session that repeats it
    answers it the same and adds a copy each time. -/
theorem session_withCopies
    (hsame : ∀ n, Transfer.of (r.withCopies n m) c source target knowledge = t)
    (hcopy : ∀ n, t.recordMapping (r.withCopies n m) = r.withCopies (n + 1) m)
    (hrequests : ∀ q ∈ requests, q.isQuery ∨ q = .transfer source target knowledge)
    (hregistry : e.registry = r.withCopies n m) (hconfig : e.config = c) :
    (∀ i : Nat, requests[i]? = some (Request.transfer source target knowledge) →
      (e.session requests).1[i]? = some (Answer.transfer t)) ∧
    (e.session requests).2.registry =
      r.withCopies (n + requests.countP fun q => !q.isQuery) m := by
  induction requests generalizing e n with
  | nil => exact ⟨fun i hi => by simp at hi, hregistry⟩
  | cons q requests ih =>
    obtain ⟨hq, hrest⟩ := List.forall_mem_cons.1 hrequests
    obtain ⟨hanswer, hnext⟩ := answer_withCopies hsame hcopy hq hregistry hconfig
    obtain ⟨hanswers, hfinal⟩ := ih hrest hnext ((config_answer q e).trans hconfig)
    rw [session_cons]
    refine ⟨fun i hi => ?_, ?_⟩
    · cases i with
      | zero => exact congrArg some (hanswer (Option.some.inj hi))
      | succ i => exact hanswers i hi
    · rw [List.countP_cons, Nat.add_comm (List.countP ..), ← Nat.add_assoc]
      exact hfinal

end

/-- **A transfer that is repeated comes out the same.**  Among requests that only ask, a transfer
    that has succeeded gives the same answer each time and adds one copy more of its mapping, if
    no two of its concepts differ in case alone. -/
theorem transfer_repeated {e : Engine} (h : e.registry.Reachable) {source target : Text}
    {knowledge : Json} {requests : List Request}
    (hsuccess : (e.transfer source target knowledge).1.success = true)
    (hdistinct : ((KnowledgeStructure.ofJson knowledge).concepts.map Text.lower).Nodup)
    (hrequests : ∀ q ∈ requests, q.isQuery ∨ q = .transfer source target knowledge) :
    let t := (e.transfer source target knowledge).1
    let left := (e.transfer source target knowledge).2
    ∃ m, t.mapping = some m ∧
      (∀ i : Nat, requests[i]? = some (Request.transfer source target knowledge) →
        (left.session requests).1[i]? = some (Answer.transfer t)) ∧
      (left.session requests).2.registry =
        e.registry.withCopies (1 + requests.countP fun q => !q.isQuery) m := by
  intro t left
  obtain ⟨_, _, m, -, hm, -, hadd⟩ := Transfer.of_success h.wellFormed hsuccess
  have hsame : ∀ n, Transfer.of (e.registry.withCopies n m) e.config source target knowledge = t :=
    fun n => Transfer.of_withCopies n h.wellFormed hsuccess hdistinct hm.mapping
  have hcopy : ∀ n, t.recordMapping (e.registry.withCopies n m) =
      e.registry.withCopies (n + 1) m := by
    intro n
    refine (Transfer.Records.recordMapping hm (hadd _)).trans ?_
    unfold Registry.withCopies
    rw [List.append_assoc, ← List.replicate_succ']
  have hfirst : left.registry = e.registry.withCopies 1 m := hm.recordMapping (hadd e.registry)
  exact ⟨m, hm.mapping, session_withCopies hsame hcopy hrequests hfirst rfl⟩

/-- What biology says of two concepts is carried to technology three times, with a question
    about the registry between. -/
theorem transfer_repeated_adaptation :
    let e := Engine.seeded {}
    let knowledge := Json.ofMembers [("adaptation", .ofText "feedback driven change"),
      ("feedback", .ofText "regulation")]
    let again := Request.transfer "biology" "technology" knowledge
    let t := (e.transfer "biology" "technology" knowledge).1
    let left := (e.transfer "biology" "technology" knowledge).2
    t.success = true ∧ ∃ m, t.mapping = some m ∧
      (left.session [again, .summary, again]).1[2]? = some (Answer.transfer t) ∧
      (left.session [again, .summary, again]).2.registry = e.registry.withCopies 3 m := by
  intro e knowledge again t left
  have hsuccess : t.success = true := by decide +kernel
  have hdistinct : ((KnowledgeStructure.ofJson knowledge).concepts.map Text.lower).Nodup := by
    decide +kernel
  have hrequests : ∀ q ∈ [again, .summary, again],
      q.isQuery ∨ q = .transfer "biology" "technology" knowledge := by
    simp [again, Request.isQuery]
  obtain ⟨m, hm, hanswers, hfinal⟩ :=
    transfer_repeated (reachable_seeded {}) hsuccess hdistinct hrequests
  exact ⟨hsuccess, m, hm, hanswers 2 rfl, hfinal⟩

end Engine

end Reasoning
