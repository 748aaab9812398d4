/-
  What a decision recommends.

  The choices come from an input, its context and the registry; every rule scores all of them, and
  the most confident rule recommends the choice that it scores highest.

  * `firstsBy`, `distinctBy_eq_firstsBy`: the first choices of their names are kept;
  * `Decision.sound_choices`: no attribute of a choice is `nan`;
  * `Decision.Reports`: what is said of a rule;
  * `Decision.Recommends`: the choice that the rules recommend;
  * `Decision.Selects`: a result with this choice and its alternatives;
  * `Decision.reason_recommends`: the result of a decision.
-/
import Mathlib.Data.List.InsertIdx
import Reasoning.Proofs.ChoiceOrder

namespace Reasoning

/-! ## The first of a name -/

section
variable {α : Type} {key : α → Text} {as : List α} {k : Text}

/-- The entries whose key none before them has. -/
def firstsBy (key : α → Text) (as : List α) : List α :=
  (as.zipIdx.filter fun (a, i) => !(as.take i).any (key · == key a)).map (·.1)

theorem distinctBy_concat (key : α → Text) (as : List α) (a : α) :
    distinctBy key (as ++ [a]) = if (distinctBy key as).any (key · == key a) then distinctBy key as
      else distinctBy key as ++ [a] := List.foldl_append

theorem any_key_iff {a : α} : (as.any (key · == key a)) = true ↔ key a ∈ as.map key := by
  simp

/-- No key is lost. -/
theorem mem_keys_distinctBy : k ∈ (distinctBy key as).map key ↔ k ∈ as.map key := by
  induction as using List.reverseRecOn with
  | nil => exact Iff.rfl
  | append_singleton as a ih =>
    rw [distinctBy_concat, List.map_append, List.mem_append, ← ih]
    split
    · rename_i ha
      simp only [List.map_singleton, List.mem_singleton]
      exact ⟨.inl, fun h => h.elim id fun h => h ▸ any_key_iff.1 ha⟩
    · rw [List.map_append, List.mem_append]

/-- No key is there twice. -/
theorem nodup_keys_distinctBy (key : α → Text) (as : List α) :
    ((distinctBy key as).map key).Nodup := by
  induction as using List.reverseRecOn with
  | nil => exact List.nodup_nil
  | append_singleton as a ih =>
    rw [distinctBy_concat]
    split
    · exact ih
    · rename_i hnew
      rw [List.map_append, List.map_singleton, ← List.concat_eq_append]
      exact ih.concat fun h => hnew (any_key_iff.2 h)

/-- Nothing is lost where no key comes twice. -/
theorem distinctBy_eq_self (h : (as.map key).Nodup) : distinctBy key as = as := by
  induction as using List.reverseRecOn with
  | nil => rfl
  | append_singleton as a ih =>
    rw [List.map_append, List.map_singleton, ← List.concat_eq_append, List.nodup_concat] at h
    rw [distinctBy_concat, ih h.2, if_neg fun ha => h.1 (any_key_iff.1 ha)]

/-- The first entry of each key stays. -/
theorem distinctBy_eq_firstsBy (key : α → Text) (as : List α) :
    distinctBy key as = firstsBy key as := by
  induction as using List.reverseRecOn with
  | nil => rfl
  | append_singleton as a ih =>
    have hbefore : (as.zipIdx.filter fun (b, i) => !((as ++ [a]).take i).any (key · == key b)) =
        as.zipIdx.filter fun (b, i) => !(as.take i).any (key · == key b) :=
      List.filter_congr fun (b, i) hb => by
        dsimp only
        rw [List.take_append_of_le_length (List.snd_lt_of_mem_zipIdx hb).le]
    have hany : (distinctBy key as).any (key · == key a) = as.any (key · == key a) := by
      rw [Bool.eq_iff_iff, any_key_iff, any_key_iff, mem_keys_distinctBy]
    rw [distinctBy_concat, hany, ih]
    unfold firstsBy
    rw [List.zipIdx_append, List.filter_append, List.map_append, hbefore]
    cases ha : as.any (key · == key a) <;>
      simp [ha, -List.any_eq_true, -List.any_eq_false]

end

/-! ## Choices that are gathered -/

/-- Every attribute is brought to a score. -/
theorem Scale.isScore_normalize (s : Scale) (x : Single) (unit : Bool) :
    Score.IsScore (s.normalize x unit) := by
  unfold Scale.normalize
  split
  · rename_i h
    simp only [Bool.and_eq_true, decide_eq_true_eq] at h
    exact ⟨h.1.2, h.2⟩
  · exact Score.isScore_clamp _

namespace Choice

variable {c : Choice Single}

theorem Sound.setAttribute (h : c.Sound) (s : Scale) (key : Text) {x : Single}
    (hx : x.isNaN = false) : (c.setAttribute s key x).Sound := by
  have hinsert {d : Dict Single} (hd : ∀ a ∈ d, a.2.isNaN = false) :
      ∀ a ∈ d.insert key x, a.2.isNaN = false := by
    intro a ha
    rcases Dict.mem_insert ha with rfl | ha
    · exact hx
    · exact hd a ha
  unfold Sound attributes at h ⊢
  simp only [List.forall_mem_append] at h ⊢
  cases s with
  | score => exact ⟨⟨hinsert h.1.1, h.1.2⟩, h.2⟩
  | utility => exact ⟨⟨h.1.1, hinsert h.1.2⟩, h.2⟩
  | risk => exact ⟨h.1, hinsert h.2⟩

theorem Sound.addMatch (h : c.Sound) (m : Regex.Match) : (c.addMatch m).Sound := by
  unfold Choice.addMatch
  dsimp only
  split
  · exact h.setAttribute _ _ (Scale.isScore_normalize ..).isNaN
  · exact h

theorem Sound.addMember (h : c.Sound) (s : Scale) (m : Text × Json) : (c.addMember s m).Sound := by
  unfold Choice.addMember
  dsimp only
  split
  · split
    · exact h.setAttribute _ _ (Scale.isScore_normalize ..).isNaN
    · exact h
  · split
    · exact h.setAttribute _ _ (Scale.isScore_normalize ..).isNaN
    · exact h

theorem sound_ofInput (input : Text) (confidence : Single) :
    ∀ c ∈ ofInput input confidence, c.Sound := by
  refine List.forall_mem_map.2 fun n _ => ?_
  refine List.foldlRecOn _ _ (motive := Sound) (List.forall_mem_nil _) fun c hc t _ => ?_
  exact List.foldlRecOn _ _ (motive := Sound) hc fun c hc m _ => hc.addMatch m

theorem sound_ofContext (context : Json) (confidence : Single) :
    ∀ c ∈ ofContext context confidence, c.Sound := by
  intro c hc
  obtain ⟨entry, -, h⟩ := List.mem_filterMap.1 hc
  unfold ofContextValue? at h
  dsimp only at h
  obtain ⟨-, h⟩ := Option.ite_none_left_eq_some.1 h
  rw [← Option.some.inj h]
  split
  · exact List.forall_mem_nil _
  · refine List.foldlRecOn _ _ (motive := Sound) (List.forall_mem_nil _) fun c hc field _ => ?_
    exact List.foldlRecOn _ _ (motive := Sound) hc fun c hc m _ => hc.addMember _ m
  · exact List.forall_mem_nil _

end Choice

namespace Decision

open Verdict

variable {r : Registry} {c : Config} {input : Text} {context : Json} {cs : List (Choice Single)}
  {ks : List (Criterion Single)} {rule : DecisionRule} {rules : List DecisionRule}

/-- No attribute of a choice that is gathered is `nan`. -/
theorem sound_choices (h : r.Consistent) : ∀ a ∈ choices r c input context, a.Sound := by
  intro a ha
  have ha := mem_of_mem_distinctBy ha
  rw [List.mem_append, List.mem_append] at ha
  rcases ha with (ha | ha) | ha
  · exact Choice.sound_ofInput _ _ a ha
  · exact Choice.sound_ofContext _ _ a ha
  · exact (h.choices.good a ha).sound

/-! ## Verdicts -/

theorem isScore_confidence_decide (rule : DecisionRule) (cs : List (Choice Single))
    (ks : List (Criterion Single)) : Score.IsScore (rule.decide cs ks).confidence := by
  unfold DecisionRule.decide
  split
  · exact Score.isScore_zero
  · exact Score.isScore_clamp _

/-- The verdict that counts is the first of the most confident. -/
theorem isFirstLargest_winner (hrules : rules ≠ []) (cs : List (Choice Single))
    (ks : List (Criterion Single)) :
    IsFirstLargest (rules.map fun rule => (rule.decide cs ks).confidence)
      (winner (rules.map fun rule => rule.decide cs ks)) := by
  unfold winner
  rw [List.map_map]
  exact isFirstLargest_firstLargest (by simpa using hrules)
    (List.forall_mem_map.2 fun rule _ => (isScore_confidence_decide rule cs ks).isNaN)

/-! ## Recommendations -/

/-- What an entry says of a rule: how confident its verdict is, one score for each choice, under
    its name, and the first of the choices with the largest. -/
structure Reports (cs : List (Choice Single)) (ks : List (Criterion Single)) (rule : DecisionRule)
    (entry : Json) : Prop where
  id : entry.member? "rule" = some (.string rule.id)
  confidence : entry.member? "confidence" = some (.ofSingle (rule.decide cs ks).confidence)
  scores : ∃ scores : Dict Json, entry.member? "scores" = some (.object scores) ∧
    scores.keys.Perm (cs.map (·.name)) ∧
    ∀ a ∈ cs, scores.get? a.name = some (.ofSingle (DecisionRule.score rule.kind ks cs a))
  selected : ∃ i a, IsFirstLargest (DecisionRule.scores rule.kind ks cs) i ∧ cs[i]? = some a ∧
    entry.member? "selected" = some (.string a.name)

/-- The choice at the place is recommended by a rule of the kind: the rule that is the first of
    the most confident picks it.  Without rules the first choice is recommended. -/
inductive Recommends (rules : List DecisionRule) (cs : List (Choice Single))
    (ks : List (Criterion Single)) : DecisionRule.Kind → Nat → Prop
  | rule {j : Nat} {rule : DecisionRule} {i : Nat} (hrule : rules[j]? = some rule)
      (hconfident : IsFirstLargest (rules.map fun rule => (rule.decide cs ks).confidence) j)
      (hpicked : IsFirstLargest (DecisionRule.scores rule.kind ks cs) i) :
      Recommends rules cs ks rule.kind i
  | none (hrules : rules = []) : Recommends rules cs ks .expectedValue 0

/-- The result names the choice as the one that is selected by a rule of the kind, and the other
    choices as the alternatives. -/
structure Selects (result : Result) (cs : List (Choice Single)) (kind : DecisionRule.Kind)
    (i : Nat) (a : Choice Single) : Prop where
  choice : cs[i]? = some a
  conclusions : result.conclusions =
    [Text.ofString "Select " ++ a.name ++ Text.ofString " (" ++ kind.name ++ Text.ofString ")"]
  selected : ∃ selected, result.details.member? "selected" = some selected ∧
    selected.member? "id" = some (.string a.id) ∧ selected.member? "name" = some (.string a.name)
  alternatives : result.alternatives = (cs.eraseIdx i).map (·.name)
  distinct : result.alternatives.Nodup
  others : a.name ∉ result.alternatives

theorem Recommends.lt_length {kind : DecisionRule.Kind} {i : Nat}
    (h : Recommends rules cs ks kind i) (hne : cs ≠ []) : i < cs.length := by
  cases h with
  | rule _ _ hpicked => simpa [DecisionRule.scores] using hpicked.lt_length
  | none => exact List.length_pos_iff.2 hne

namespace Ranking

/-- The verdict that counts recommends its choice. -/
theorem recommends_of (hcs : ∀ a ∈ cs, a.Sound) (hne : cs ≠ []) (ps : List Proposition)
    (ks : List (Criterion Single)) (rules : List DecisionRule) :
    let k := Ranking.of ps cs ks rules
    Recommends rules cs ks k.final.kind k.final.selected := by
  intro k
  have hverdicts : k.verdicts = rules.map fun rule => (rule, rule.decide cs ks) := rfl
  by_cases hrules : rules = []
  · subst hrules
    exact .none rfl
  · have hconfident : IsFirstLargest (rules.map fun rule => (rule.decide cs ks).confidence)
        k.winner := by
      have := isFirstLargest_winner hrules cs ks
      show IsFirstLargest _ (Decision.winner (k.verdicts.map (·.2)))
      rwa [hverdicts, List.map_map]
    have hlt : k.winner < rules.length := by simpa using hconfident.lt_length
    have hrule : rules[k.winner]? = some rules[k.winner] := List.getElem?_eq_getElem hlt
    have hfinal : k.final = (rules[k.winner]).decide cs ks := by
      show ((k.verdicts[k.winner]?).map (·.2)).getD (noVerdict cs) = _
      rw [hverdicts, List.getElem?_map, hrule]
      rfl
    have hpicked := DecisionRule.isFirstLargest_selected hcs hne rules[k.winner] ks
    rw [hfinal]
    rw [DecisionRule.decide_eq hne] at hpicked ⊢
    exact .rule hrule hconfident hpicked

theorem reports_verdictJson (hcs : ∀ a ∈ cs, a.Sound) (hne : cs ≠ [])
    (hnames : (cs.map (·.name)).Nodup) {k : Ranking} (hk : k.choices = cs)
    (ks : List (Criterion Single)) (rule : DecisionRule) :
    Reports cs ks rule (k.verdictJson (rule.decide cs ks)) := by
  subst hk
  have hfirst := DecisionRule.isFirstLargest_selected hcs hne rule ks
  have hdecide : (rule.decide k.choices ks).rule = rule.id ∧
      (rule.decide k.choices ks).scores = DecisionRule.scores rule.kind ks k.choices := by
    rw [DecisionRule.decide_eq hne]
    exact ⟨rfl, rfl⟩
  generalize hv : rule.decide k.choices ks = v at hfirst hdecide ⊢
  have hscores : (k.verdictJson v).member? "scores" = some (.object (Dict.ofList
      (k.choices.map fun a =>
        (a.name, Json.ofSingle (DecisionRule.score rule.kind ks k.choices a))))) := by
    show some (Json.object (Dict.ofList ((k.choices.zip v.scores).map fun e =>
      (e.1.name, Json.ofSingle e.2)))) = _
    rw [hdecide.2, DecisionRule.scores, ← List.map_prod_left_eq_zip, List.map_map]
    rfl
  have hkeys : (k.choices.map fun a =>
      (a.name, Json.ofSingle (DecisionRule.score rule.kind ks k.choices a))).map (·.1) =
      k.choices.map (·.name) := by
    rw [List.map_map]
    rfl
  have hlt : v.selected < k.choices.length := by
    simpa [DecisionRule.scores] using hfirst.lt_length
  refine ⟨hdecide.1 ▸ rfl, hv ▸ rfl, ⟨_, hscores, ?_, fun a ha => ?_⟩, v.selected,
    k.choices[v.selected], hfirst, List.getElem?_eq_getElem hlt, ?_⟩
  · refine (List.perm_ext_iff_of_nodup (Dict.sorted_ofList _).nodup_keys hnames).2 fun name => ?_
    rw [Dict.mem_keys_ofList, hkeys]
  · refine Dict.get?_ofList_of_nodup (hkeys ▸ hnames) ?_
    exact List.mem_map_of_mem (f := fun a : Choice Single => (a.name, _)) ha
  · show some (Json.string (pickedName k.choices v)) = _
    unfold pickedName
    rw [List.getElem?_eq_getElem hlt]
    rfl

theorem reports_answer (hcs : ∀ a ∈ cs, a.Sound) (hne : cs ≠ [])
    (hnames : (cs.map (·.name)).Nodup) (ps : List Proposition) (ks : List (Criterion Single))
    (rules : List DecisionRule) (c : Config) (input : Text) :
    ∃ entries, ((Ranking.of ps cs ks rules).answer c input).details.member? "rules" =
      some (.array entries) ∧ List.Forall₂ (Reports cs ks) rules entries := by
  refine ⟨_, rfl, ?_⟩
  refine List.forall₂_map_right_iff.2 (List.forall₂_map_right_iff.2 (List.forall₂_same.2 ?_))
  exact fun rule _ => reports_verdictJson hcs hne hnames rfl ks rule

theorem selects_answer {k : Ranking} {a : Choice Single} (hnames : (k.choices.map (·.name)).Nodup)
    (ha : k.choices[k.final.selected]? = some a) (c : Config) (input : Text) :
    Selects (k.answer c input) k.choices k.final.kind k.final.selected a := by
  obtain ⟨hlt, hget⟩ := List.getElem?_eq_some_iff.1 ha
  have hname : k.selectedName = a.name := by
    unfold selectedName pickedName
    rw [ha]
    rfl
  have herase : (k.choices.map (·.name)).erase a.name = (k.answer c input).alternatives := by
    show _ = (k.choices.map (·.name)).eraseIdx k.final.selected
    rw [← hnames.erase_getElem _ (by simpa using hlt), List.getElem_map, hget]
  refine ⟨ha, ?_, ⟨_, rfl, ?_, ?_⟩, ?_, ?_, ?_⟩
  · rw [← hname]
    rfl
  · show some (Json.string ((k.selected?.map (·.id)).getD [])) = _
    rw [selected?, ha]
    rfl
  · rw [← hname]
    rfl
  · rw [← List.eraseIdx_map]
    rfl
  · exact herase ▸ hnames.erase _
  · exact herase ▸ hnames.not_mem_erase

end Ranking

theorem reason_eq (hne : choices r c input context ≠ []) (m : Metrics) :
    (reason r c m input context).1 = (Ranking.of (Extraction.extract input context).premises
      (choices r c input context) (criteria r input context) r.decisionRules.items).answer c
        input := by
  unfold reason
  dsimp only
  rw [if_neg (List.isEmpty_iff.not.2 hne)]

/-- **What a decision recommends.**  The choices are those of the input, of the context and of the
    registry, in this order, save those whose name one before them has in any case.  Each rule
    scores each of them once.  The rule that is the first of the most confident recommends the
    first of the choices that it scores highest; the other choices are the alternatives, each once
    and in order. -/
theorem reason_recommends (hr : r.Reachable) (c : Config) (m : Metrics) (input : Text)
    (context : Json) (hne : choices r c input context ≠ []) :
    let cs := choices r c input context
    let ks := criteria r input context
    let rules := r.decisionRules.items
    let result := (reason r c m input context).1
    cs = firstsBy (·.name.lower) (Choice.ofInput input c.defaultOptionConfidence ++
      Choice.ofContext context c.defaultOptionConfidence ++ r.choices.items) ∧
    (cs.map (·.name.lower)).Nodup ∧
    result.details.member? "options" = some (.array (cs.map Ranking.choiceJson)) ∧
    (∃ entries, result.details.member? "rules" = some (.array entries) ∧
      List.Forall₂ (Reports cs ks) rules entries) ∧
    ∃ kind i a, Recommends rules cs ks kind i ∧ Selects result cs kind i a := by
  intro cs ks rules result
  have hcs : ∀ a ∈ cs, a.Sound := sound_choices hr.consistent
  have hlower : (cs.map (·.name.lower)).Nodup := nodup_keys_distinctBy ..
  have hnames : (cs.map (·.name)).Nodup := by
    have heq : cs.map (·.name.lower) = (cs.map (·.name)).map Text.lower := by
      rw [List.map_map]
      rfl
    exact (heq ▸ hlower).of_map _
  have hresult : result = (Ranking.of (Extraction.extract input context).premises cs ks
    rules).answer c input := reason_eq hne m
  rw [hresult]
  have hrecommends := Ranking.recommends_of hcs hne (Extraction.extract input context).premises
    ks rules
  have hchoice := List.getElem?_eq_getElem (hrecommends.lt_length hne)
  exact ⟨distinctBy_eq_firstsBy .., hlower, rfl, Ranking.reports_answer hcs hne hnames ..,
    _, _, _, hrecommends, Ranking.selects_answer hnames hchoice c input⟩

/-- Tea is registered and asked about, water stands in the context too. -/
theorem reason_recommends_tea :
    let tea : Choice Single := ⟨"tea", "TEA", [], [], [], [], 1⟩
    let r := Registry.seeded.offer (.choice tea)
    let input := Text.ofString "Choose between tea and coffee. The tea has quality score:8."
    let context := Json.ofMembers [("decisionOptions", .ofTexts ["Water", "Coffee"])]
    let cs := choices r {} input context
    let result := (reason r {} .empty input context).1
    cs.map (·.name) = ["tea", "coffee", "Water"].map Text.ofString ∧
    r.decisionRules.items.length = 5 ∧
    ∃ kind i a, Recommends r.decisionRules.items cs (criteria r input context) kind i ∧
      Selects result cs kind i a := by
  intro tea r input context cs result
  have hr : r.Reachable := Registry.reachable_seeded.offer _
  have hnames : cs.map (·.name) = ["tea", "coffee", "Water"].map Text.ofString := by decide +kernel
  have hne : cs ≠ [] := fun h => by
    rw [h] at hnames
    cases hnames
  exact ⟨hnames, by decide +kernel, (reason_recommends hr {} .empty input context hne).2.2.2.2⟩

end Decision

end Reasoning
