/-
  What the worlds of a modal call say of its operators.

  The actual world says of a premise whether it is stated without a negation, a world that an
  operator opens repeats it or turns it, and registered worlds count where they can be reached.

  * `World.mem_verdicts_build`: what is said of a premise;
  * `Modal.Stands`: nothing speaks against a premise;
  * `Evaluation.satisfied_of_possibility`, `Evaluation.satisfied_iff_stands`: when operators hold;
  * `Modal.reason_evaluates`: the evaluations, conclusions and denials of an answer.
-/
import Reasoning.Proofs.Grounding
import Reasoning.Proofs.Renaming
import Reasoning.Proofs.Worlds

namespace Reasoning

/-- A text denies something by one of three words. -/
theorem Text.isNegated_eq_false_iff {t : Text} :
    t.isNegated = false ↔ ∀ w ∈ Text.ofStrings ["not", "no", "never"], w ∉ t.words := by
  unfold isNegated hasAnyWord
  rw [List.any_eq_false]
  simp only [List.contains_iff_mem]
  rfl

namespace World

/-! ## What is said of a premise -/

section
variable {c : Config} {r : Registry} {ps : List Proposition} {p : Proposition}
  {ds : List Detection} {d : Detection} {actual w : World} {id : Text} {i : Nat} {b : Bool}

/-- The actual world says of each premise whether it is stated without a negation. -/
theorem get?_actual (hp : ps[i]? = some p) :
    (World.actual ps).propositions.get? (propositionOf i) = some (!p.text.isNegated) := by
  refine Dict.get?_ofList_of_nodup ?_ (List.mem_map.2 ⟨(p, i), ?_, rfl⟩)
  · rw [List.map_map]
    show (ps.zipIdx.map (propositionOf ∘ Prod.snd)).Nodup
    rw [← List.map_map, List.zipIdx_map_snd]
    exact List.Nodup.map (fun _ _ => propositionOf_inj.1) (List.nodup_range' ..)
  · exact List.mem_zipIdx_iff_getElem?.2 hp

/-- The operator opens a world where the premise goes the other way. -/
def Turns (d : Detection) (i : Nat) : Prop :=
  d.operator.name = Text.ofString "possibility" ∧ d.premise = i

/-- An operator that turns the premise opens a world that says the contrary of it. -/
theorem get?_opened_of_turns (h : opened? c actual d id = some w) (hturns : Turns d i)
    (hb : actual.propositions.get? (propositionOf i) = some b) :
    w.propositions.get? (propositionOf i) = some !b := by
  obtain ⟨hname, rfl⟩ := hturns
  obtain ⟨-, -, ⟨-, hstated⟩ | ⟨hother, -⟩⟩ := opened?_cases h
  · rw [hstated, Dict.get?_insert_self, hb, Option.getD_some]
  · exact absurd (hname.symm.trans hother) (by decide)

/-- Every other operator opens a world, if any, that repeats what the actual world says. -/
theorem get?_opened_of_not_turns (h : opened? c actual d id = some w) (hturns : ¬ Turns d i) :
    w.propositions.get? (propositionOf i) = actual.propositions.get? (propositionOf i) := by
  obtain ⟨-, -, ⟨hname, hstated⟩ | ⟨-, hstated⟩⟩ := opened?_cases h
  · rw [hstated]
    refine Dict.get?_insert_ne _ _ fun hsame => hturns ⟨hname, ?_⟩
    exact (propositionOf_inj.1 hsame).symm
  · rw [hstated]

theorem isReachable_of_mem (h : actualId ∈ w.accessibleFrom) : w.isReachable := by
  unfold isReachable
  rw [List.contains_iff_mem.2 h, Bool.or_true]

theorem isReachable_opened (h : opened? c actual d id = some w) : w.isReachable := by
  obtain ⟨-, hfrom, -⟩ := opened?_cases h
  exact isReachable_of_mem (hfrom ▸ List.mem_singleton_self _)

theorem Turns.isOpening (h : Turns d i) : isOpening d = true := by
  unfold World.isOpening
  rw [h.1, beq_self_eq_true, Bool.true_or]

theorem mem_verdicts {ws : List World} {P : Text} :
    b ∈ verdicts ws P ↔ ∃ w ∈ ws, w.isReachable ∧ w.propositions.get? P = some b := by
  unfold verdicts
  rw [List.mem_filterMap]
  refine exists_congr fun w => and_congr_right fun _ => ?_
  split <;> simp_all

/-- What is said of a premise by the actual world, by the worlds that turn it, and by registered
    worlds that are reached from the actual world. -/
theorem mem_verdicts_build (hr : r.Consistent) (hp : ps[i]? = some p) :
    b ∈ verdicts (build c r.worlds.items ps ds) (propositionOf i) ↔
      b = (!p.text.isNegated) ∨ (∃ d ∈ ds, Turns d i) ∧ b = p.text.isNegated ∨
        ∃ w ∈ r.worlds.items, actualId ∈ w.accessibleFrom ∧
          w.propositions.get? (propositionOf i) = some b := by
  obtain ⟨opened, hbuild, hopens⟩ := exists_build c r.worlds.items ps ds
  rw [mem_verdicts, hbuild]
  constructor
  · rintro ⟨w, hw, hreachable, hb⟩
    rw [List.mem_append, List.mem_cons] at hw
    obtain (rfl | hw) | hw := hw
    · rw [get?_actual hp] at hb
      exact .inl (Option.some.inj hb).symm
    · refine .inr (.inr ⟨w, hw, ?_, hb⟩)
      unfold isReachable at hreachable
      rwa [beq_eq_false_iff_ne.2 (hr.worlds.good w hw).id, Bool.false_or,
        List.contains_iff_mem] at hreachable
    · obtain ⟨d, hd, hopened⟩ := hopens.exists_opened hw
      by_cases hturns : Turns d i
      · rw [get?_opened_of_turns hopened hturns (get?_actual hp), Bool.not_not] at hb
        exact .inr (.inl ⟨⟨d, hd, hturns⟩, (Option.some.inj hb).symm⟩)
      · rw [get?_opened_of_not_turns hopened hturns, get?_actual hp] at hb
        exact .inl (Option.some.inj hb).symm
  · rintro (rfl | ⟨⟨d, hd, hturns⟩, rfl⟩ | ⟨w, hw, hfrom, hb⟩)
    · exact ⟨actual ps, List.mem_append_left _ (List.mem_cons_self ..), rfl, get?_actual hp⟩
    · obtain ⟨w, hw, hopened⟩ := hopens.exists_mem hd hturns.isOpening
      refine ⟨w, List.mem_append_right _ hw, isReachable_opened hopened, ?_⟩
      rw [get?_opened_of_turns hopened hturns (get?_actual hp), Bool.not_not]
    · exact ⟨w, List.mem_append_left _ (List.mem_cons_of_mem _ hw), isReachable_of_mem hfrom, hb⟩

end

end World

namespace Modal

/-! ## When operators hold -/

/-- Nothing speaks against a premise: it denies nothing, no possibility is on it, and no
    registered world that is reached from the actual world calls it false. -/
structure Stands (r : Registry) (ds : List Detection) (i : Nat) (p : Proposition) : Prop where
  affirmed : ∀ w ∈ Text.ofStrings ["not", "no", "never"], w ∉ p.text.words
  unturned : ∀ d ∈ ds, d.operator.name = Text.ofString "possibility" → d.premise ≠ i
  uncontested : ∀ w ∈ r.worlds.items, World.actualId ∈ w.accessibleFrom →
    w.propositions.get? (World.propositionOf i) ≠ some false

section
variable {c : Config} {r : Registry} {ps : List Proposition} {p : Proposition}
  {ds : List Detection} {d : Detection} {i : Nat}

/-- A premise that nothing speaks against is one that no world calls false. -/
theorem stands_iff (hr : r.Consistent) (hp : ps[i]? = some p) :
    Stands r ds i p ↔
      false ∉ World.verdicts (World.build c r.worlds.items ps ds) (World.propositionOf i) := by
  rw [World.mem_verdicts_build hr hp, not_or, not_or]
  constructor
  · rintro ⟨haffirmed, hunturned, huncontested⟩
    rw [← Text.isNegated_eq_false_iff] at haffirmed
    rw [haffirmed]
    refine ⟨nofun, ?_, ?_⟩
    · rintro ⟨⟨d, hd, hname, hpremise⟩, -⟩
      exact hunturned d hd hname hpremise
    · rintro ⟨w, hw, hfrom, hfalse⟩
      exact huncontested w hw hfrom hfalse
  · rintro ⟨haffirmed, hunturned, huncontested⟩
    have hnegated : p.text.isNegated = false := by
      rwa [eq_comm, Bool.not_eq_false', Bool.not_eq_true] at haffirmed
    refine ⟨Text.isNegated_eq_false_iff.1 hnegated, fun d hd hname hpremise => ?_,
      fun w hw hfrom hfalse => huncontested ⟨w, hw, hfrom, hfalse⟩⟩
    exact hunturned ⟨⟨d, hd, hname, hpremise⟩, hnegated.symm⟩

namespace Evaluation

variable {ws : List World}

theorem holds_eq_total_iff :
    (ofDetection ws ps d).holds = (ofDetection ws ps d).total ↔
      false ∉ World.verdicts ws (World.propositionOf d.premise) := by
  show List.count true (World.verdicts ws _) = (World.verdicts ws _).length ↔ _
  rw [List.count_eq_length]
  constructor
  · exact fun h hfalse => nomatch h false hfalse
  · intro h b hb
    cases b with
    | false => exact absurd hb h
    | true => rfl

/-- A possibility always holds: the actual world or the world that it opens says so. -/
theorem satisfied_of_possibility (hr : r.Consistent) (hp : ps[d.premise]? = some p) (hd : d ∈ ds)
    (hname : d.operator.name = Text.ofString "possibility") :
    (ofDetection (World.build c r.worlds.items ps ds) ps d).satisfied := by
  have htrue : true ∈ World.verdicts (World.build c r.worlds.items ps ds)
      (World.propositionOf d.premise) := by
    rw [World.mem_verdicts_build hr hp]
    cases p.text.isNegated with
    | false => exact .inl rfl
    | true => exact .inr (.inl ⟨⟨d, hd, hname, rfl⟩, rfl⟩)
  have hnecessity : ((ofDetection (World.build c r.worlds.items ps ds) ps d).operatorName ==
      Text.ofString "necessity") = false := by
    show (d.operator.name == _) = false
    rw [hname]
    decide
  have hpossibility : (ofDetection (World.build c r.worlds.items ps ds) ps d).isPossibility :=
    beq_iff_eq.2 hname
  unfold satisfied
  rw [hnecessity, if_neg Bool.false_ne_true, if_pos hpossibility, decide_eq_true_iff]
  exact List.count_pos_iff.2 htrue

/-- A necessity holds if and only if nothing speaks against its premise. -/
theorem satisfied_iff_stands (hr : r.Consistent) (hp : ps[d.premise]? = some p)
    (hname : d.operator.name = Text.ofString "necessity") :
    (ofDetection (World.build c r.worlds.items ps ds) ps d).satisfied ↔
      Stands r ds d.premise p := by
  -- The actual world speaks of every premise, so that some world does.
  have htotal : 0 < (ofDetection (World.build c r.worlds.items ps ds) ps d).total :=
    List.length_pos_of_mem ((World.mem_verdicts_build hr hp).2 (.inl rfl))
  have hnecessity : ((ofDetection (World.build c r.worlds.items ps ds) ps d).operatorName ==
      Text.ofString "necessity") = true := beq_iff_eq.2 hname
  unfold satisfied
  rw [hnecessity, if_pos rfl, Bool.and_eq_true, decide_eq_true_iff, and_iff_right htotal,
    beq_iff_eq, holds_eq_total_iff, stands_iff hr hp]

/-! ## What follows from an evaluation -/

/-- The denial of the operator. -/
def denial (e : Evaluation) : Text :=
  Text.ofString "Not " ++ e.operatorName ++ Text.ofString ": " ++ e.sentence

/-- Of what is left to say of an operator only its denial begins with `Not`. -/
theorem filter_alternatives (e : Evaluation) :
    e.alternatives.filter (Text.ofString "Not ").isPrefixOf =
      if e.satisfied then [] else [e.denial] := by
  have hdenial : (Text.ofString "Not ").isPrefixOf e.denial := by
    unfold denial
    rw [List.isPrefixOf_iff_prefix, List.append_assoc, List.append_assoc]
    exact List.prefix_append ..
  have hbelief : (Text.ofString "Not ").isPrefixOf
      (Text.ofString "It is believed that [" ++ e.sentence ++ Text.ofString "]") = false := rfl
  unfold alternatives
  rw [List.filter_append]
  have hrest : (if e.operatorName == Text.ofString "knowledge" then
      [Text.ofString "It is believed that [" ++ e.sentence ++ Text.ofString "]"] else []).filter
        (Text.ofString "Not ").isPrefixOf = [] := by
    split
    · rw [List.filter_cons_of_neg (by rw [hbelief]; exact nofun), List.filter_nil]
    · rfl
  rw [hrest, List.append_nil]
  split
  · rfl
  · exact List.filter_cons_of_pos hdenial

theorem filter_flatMap_alternatives (es : List Evaluation) :
    (es.flatMap alternatives).filter (Text.ofString "Not ").isPrefixOf =
      (es.filter fun e => !e.satisfied).map denial := by
  induction es with
  | nil => rfl
  | cons e es ih =>
    rw [List.flatMap_cons, List.filter_append, ih, filter_alternatives]
    cases h : e.satisfied <;> simp [h]

end Evaluation

end

/-- **What an answer says of the operators.**  Each operator that is detected is evaluated once, in
    the order of the detections.  A possibility is satisfied, and a necessity is satisfied if and
    only if nothing speaks against its premise.  The operators that are satisfied are concluded,
    and the other ones denied. -/
theorem reason_evaluates {r : Registry} {input : Text} {context : Json} {ps : List Proposition}
    {ds : List Detection} (hr : r.Reachable) (h : Detects r input context ps ds) (c : Config)
    (m : Metrics) :
    let result := (reason r c m input context).1
    ∃ es : List Evaluation, es.map (·.detection) = ds ∧
      result.details.member? "evaluations" = some (.array (es.map Evaluation.toJson)) ∧
      (∀ e ∈ es, ∃ p, ps[e.detection.premise]? = some p ∧ e.sentence = p.text ∧
        (e.operatorName = Text.ofString "possibility" → e.satisfied) ∧
        (e.operatorName = Text.ofString "necessity" →
          (e.satisfied ↔ Stands r ds e.detection.premise p))) ∧
      result.alternatives.filter (Text.ofString "Not ").isPrefixOf =
        (es.filter fun e => !e.satisfied).map Evaluation.denial ∧
      result.conclusions = (es.filter Evaluation.satisfied).map Evaluation.statement := by
  intro result
  have hresult : result = answer r c input ps ds := h.reason_eq c m
  refine ⟨ds.map (Evaluation.ofDetection (World.build c r.worlds.items ps ds) ps), ?_, ?_, ?_, ?_,
    ?_⟩
  · rw [List.map_map]
    exact List.map_id ds
  · rw [hresult]
    rfl
  · intro e he
    obtain ⟨d, hd, rfl⟩ := List.mem_map.1 he
    have hlt : d.premise < ps.length := premise_lt (h.detections ▸ hd) h.premises_ne
    have hp : ps[d.premise]? = some ps[d.premise] := List.getElem?_eq_getElem hlt
    refine ⟨ps[d.premise], hp, ?_, Evaluation.satisfied_of_possibility hr.consistent hp hd,
      Evaluation.satisfied_iff_stands hr.consistent hp⟩
    show ((ps[d.premise]?).map (·.text)).getD [] = _
    rw [hp, Option.map_some, Option.getD_some]
  · rw [hresult]
    show List.filter _ (_ ++ _) = _
    rw [List.filter_append, Evaluation.filter_flatMap_alternatives]
    split
    · exact List.append_nil _
    · exact List.append_nil _
  · rw [hresult]
    rfl

/-- A necessity that a registered world contests. -/
theorem reason_evaluates_contested :
    let contesting : World := ⟨"w_alt", "Alternative", ["w0"], [("P1", false)], [("w0", 0.6)]⟩
    let r := Registry.seeded.offer (.world contesting)
    let input := Text.ofString "The system must halt."
    let ps := (Extraction.extract input (.object [])).premises
    let ds := Detection.detect input r.modalOperators.items ps
    let result := (reason r {} .empty input (.object [])).1
    r.Reachable ∧ Detects r input (.object []) ps ds ∧
      ds.map (fun d => (d.operator.name, d.premise)) = [(Text.ofString "necessity", 0)] ∧
      result.conclusions = [] ∧
      result.alternatives.filter (Text.ofString "Not ").isPrefixOf =
        [Text.ofString "Not necessity: The system must halt"] := by
  intro contesting r input ps ds result
  have hr : r.Reachable := Registry.reachable_seeded.offer _
  have hdetects : Detects r input (.object []) ps ds :=
    ⟨rfl, rfl, by decide +kernel, by decide +kernel⟩
  have hds : ds.map (fun d => (d.operator.name, d.premise)) = [(Text.ofString "necessity", 0)] := by
    decide +kernel
  have htext : (ps[0]?).map (·.text) = some (Text.ofString "The system must halt") := by
    decide +kernel
  have hregistered : r.worlds.items = [contesting] := by decide +kernel
  obtain ⟨es, hes, -, hevaluated, hdenied, hconcluded⟩ := reason_evaluates hr hdetects {} .empty
  rw [← hes, List.map_map, List.map_eq_singleton_iff] at hds
  obtain ⟨e, rfl, he⟩ := hds
  obtain ⟨hname, hpremise⟩ := Prod.mk.inj he
  obtain ⟨p, hp, hsentence, -, hnecessity⟩ := hevaluated e (List.mem_singleton_self e)
  rw [hpremise] at hp hnecessity
  rw [hp, Option.map_some, Option.some.injEq] at htext
  have hunsatisfied : e.satisfied = false := by
    rw [← Bool.not_eq_true, hnecessity hname]
    intro hstands
    refine hstands.uncontested contesting ?_ (List.mem_singleton_self _) rfl
    rw [hregistered]
    exact List.mem_singleton_self _
  refine ⟨hr, hdetects, by rw [← hes, List.map_singleton, ← he]; rfl, ?_, ?_⟩
  · rw [hconcluded, List.filter_cons_of_neg (by rw [hunsatisfied]; exact nofun)]
    rfl
  · rw [hdenied, List.filter_cons_of_pos (by rw [hunsatisfied]; rfl)]
    have hname : e.operatorName = Text.ofString "necessity" := hname
    rw [List.filter_nil, List.map_singleton, Evaluation.denial, hname, hsentence, htext]
    decide +kernel

end Modal

end Reasoning
