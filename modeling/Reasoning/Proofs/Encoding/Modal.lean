/-
  Answers of the modal engine are whole symbols.

  * `Detection.allValid_of_mem_detect`: a trigger is a text of its operator;
  * `World.allValid_build`: worlds are named by numbers or registered;
  * `Modal.printable_reason`: the answer of the engine.
-/
import Mathlib.Tactic.SplitIfs
import Reasoning.Modal.Reason
import Reasoning.Proofs.Encoding

namespace Reasoning

open Text

namespace Detection

variable {input : Text} {o : ModalOperator} {ps : List Proposition} {d : Detection}

theorem foldl_better_mem (t : Nat × Text) (ts : List (Nat × Text)) :
    ts.foldl (fun best u => if u.1 < best.1 then u else best) t ∈ t :: ts := by
  refine List.foldlRecOn (motive := (· ∈ t :: ts)) ts _ (List.mem_cons_self ..)
    fun best hbest u hu => ?_
  split
  · exact List.mem_cons_of_mem _ hu
  · exact hbest

/-- The trigger is one of the texts of the operator. -/
theorem allValid_of_ofOperator? (ho : AllValid o.texts) (h : ofOperator? input ps o = some d) :
    AllValid d.operator.texts ∧ d.trigger.Valid := by
  obtain ⟨⟨position, trigger⟩, ht, rfl⟩ := Option.map_eq_some_iff.1 h
  refine ⟨ho, ?_⟩
  have hmem : (position, trigger) ∈ triggers input o := by
    cases hts : triggers input o with
    | nil =>
      rw [hts] at ht
      cases ht
    | cons t ts =>
      rw [hts, firstTrigger?, Option.some.injEq] at ht
      rw [← ht]
      exact foldl_better_mem t ts
  simp only [ModalOperator.texts, allValid_cons] at ho
  obtain ⟨hsymbol, hname, -, hkeywords⟩ := ho
  simp only [triggers, List.mem_filterMap, id_eq, exists_eq_right, List.mem_cons,
    List.mem_map] at hmem
  rcases hmem with hmem | ⟨w, hw, hmem⟩
  · obtain ⟨p, -, hp⟩ := Option.map_eq_some_iff.1 hmem.symm
    cases hp
    exact hsymbol
  · obtain ⟨p, -, hp⟩ := Option.map_eq_some_iff.1 hmem
    cases hp
    rcases hw with rfl | hw
    · exact hname
    · exact hkeywords _ hw

theorem allValid_of_mem_detect {os : List ModalOperator} (ho : ∀ o ∈ os, AllValid o.texts) :
    ∀ d ∈ detect input os ps, AllValid d.operator.texts ∧ d.trigger.Valid := by
  intro d hd
  obtain ⟨o, hos, hd⟩ := List.mem_filterMap.1 (List.mem_mergeSort.1 hd)
  exact allValid_of_ofOperator? (ho o hos) hd

end Detection

namespace World

theorem valid_propositionOf (i : Nat) : (propositionOf i).Valid :=
  (valid_cons (by decide)).2 (valid_ofNat _)

theorem valid_idOf (n : Nat) : (idOf n).Valid := (valid_cons (by decide)).2 (valid_ofNat n)

theorem allValid_actual (ps : List Proposition) : AllValid (actual ps).texts := by
  have hkeys : AllValid (actual ps).propositions.keys := by
    intro t ht
    obtain ⟨e, he, rfl⟩ := List.mem_map.1 ht
    obtain ⟨⟨p, i⟩, -, rfl⟩ := List.mem_map.1 (Dict.mem_of_mem_ofList he)
    exact valid_propositionOf i
  have htexts : (actual ps).texts = Text.ofString "w0" :: Text.ofString "Actual World" ::
      (actual ps).propositions.keys := by
    simp [texts, actual, actualId, Dict.keys]
  rw [htexts]
  simp [hkeys]

theorem allValid_opened? {c : Config} {actual w : World} {d : Detection} {id : Text}
    (ha : AllValid actual.texts) (hid : id.Valid) (h : opened? c actual d id = some w) :
    AllValid w.texts := by
  simp only [texts, allValid_cons, allValid_append] at ha
  obtain ⟨-, -, ⟨-, hkeys⟩, -⟩ := ha
  have hactual : actualId.Valid := valid_ofString _
  unfold opened? at h
  split at h
  · cases h
    have hinsert : AllValid (Dict.keys (actual.propositions.insert (propositionOf d.premise)
        (!(actual.propositions.get? (propositionOf d.premise)).getD false))) :=
      AllValid.of_subset (allValid_cons.2 ⟨valid_propositionOf _, hkeys⟩)
        (Dict.keys_insert_subset ..)
    simpa [texts, hid, hactual, Dict.keys] using hinsert
  · split at h
    · cases h
      simpa [texts, hid, hactual, Dict.keys] using hkeys
    · cases h

theorem allValid_addOpened {c : Config} {actual : World} (ha : AllValid actual.texts)
    (ds : List Detection) (n : Nat) {ws : List World} (hw : ∀ w ∈ ws, AllValid w.texts) :
    ∀ w ∈ addOpened c actual ds n ws, AllValid w.texts := by
  induction ds generalizing n ws with
  | nil => exact hw
  | cons d ds ih =>
    unfold addOpened
    dsimp only
    split
    · rename_i w hopened
      refine ih _ ?_
      rw [List.forall_mem_append, List.forall_mem_singleton]
      exact ⟨hw, allValid_opened? ha (valid_idOf _) hopened⟩
    · exact ih _ hw

theorem allValid_build (c : Config) {registered : List World} (ps : List Proposition)
    (ds : List Detection) (hw : ∀ w ∈ registered, AllValid w.texts) :
    ∀ w ∈ build c registered ps ds, AllValid w.texts :=
  allValid_addOpened (allValid_actual ps) ds _ (List.forall_mem_cons.2 ⟨allValid_actual ps, hw⟩)

theorem printable_toJson {w : World} (h : AllValid w.texts) : w.toJson.Printable := by
  simp only [texts, allValid_cons, allValid_append] at h
  obtain ⟨hid, hname, ⟨hfrom, hpropositions⟩, haccessibility⟩ := h
  simp [toJson, hid, hname, hfrom, hpropositions, haccessibility]

end World

namespace Modal

variable {ps : List Proposition} {ds : List Detection} {rules : List ModalRule}
  {ws : List World} {as : List Application} {es : List Evaluation}

theorem mem_of_mem_applications {a : Application} (h : a ∈ applications rules ds) :
    a.rule ∈ rules ∧ a.detection ∈ ds := by
  obtain ⟨rule, hrule, h⟩ := List.mem_filterMap.1 h
  obtain ⟨⟨d, i⟩, hfound, rfl⟩ := Option.map_eq_some_iff.1 h
  exact ⟨hrule, (List.mem_zipIdx' (List.mem_of_find?_eq_some hfound)).2 ▸ List.getElem_mem _⟩

/-- The text of a premise, or none. -/
theorem valid_sentence (hp : ∀ p ∈ ps, AllValid p.texts) (i : Nat) :
    Text.Valid (((ps[i]?).map (·.text)).getD []) := by
  cases hi : ps[i]? with
  | none => exact .nil
  | some p => exact hp p (List.mem_of_getElem? hi) p.text (by simp [Proposition.texts])

/-! ### Evaluations -/

namespace Evaluation

variable {e : Evaluation}

/-- The texts of an evaluation: the sentence, and those of the operator. -/
def texts (e : Evaluation) : List Text := e.sentence :: e.detection.operator.texts

theorem allValid_ofDetection {d : Detection} (hp : ∀ p ∈ ps, AllValid p.texts)
    (hd : AllValid d.operator.texts) : AllValid (ofDetection ws ps d).texts :=
  allValid_cons.2 ⟨valid_sentence hp _, hd⟩

theorem valid_statement (h : AllValid e.texts) : e.statement.Valid := by
  simp only [texts, ModalOperator.texts, allValid_cons] at h
  simp [statement, h]

theorem allValid_alternatives (h : AllValid e.texts) : AllValid e.alternatives := by
  simp only [texts, ModalOperator.texts, allValid_cons] at h
  unfold alternatives operatorName
  rw [allValid_append]
  constructor <;> split <;> simp [h]

theorem printable_toJson (h : AllValid e.texts) : e.toJson.Printable := by
  simp only [texts, ModalOperator.texts, allValid_cons] at h
  simp [toJson, operatorName, h, World.valid_propositionOf]

end Evaluation

/-! ### Parts of an answer -/

theorem printable_proof (hp : ∀ p ∈ ps, AllValid p.texts)
    (hd : ∀ d ∈ ds, AllValid d.operator.texts ∧ d.trigger.Valid)
    (ha : ∀ a ∈ as, AllValid a.rule.texts) (he : ∀ e ∈ es, AllValid e.texts) :
    (proof ps ds as es).Printable := by
  unfold proof
  dsimp only
  refine Ledger.Printable.foldl (Ledger.Printable.foldl (Ledger.Printable.foldl
    (Ledger.printable_premises hp) ?_) ?_) ?_
  · intro l d hds hl
    obtain ⟨ho, htrigger⟩ := hd d hds
    simp only [ModalOperator.texts, allValid_cons] at ho
    exact hl.push (by simp [ho, valid_sentence hp]) (by simp [htrigger])
  · intro l a has hl
    have := ha a has
    simp only [ModalRule.texts, allValid_cons] at this
    exact hl.push (by simp [this]) this.2.1
  · rintro l ⟨e, i⟩ hei hl
    have hes : e ∈ es := (List.mem_zipIdx' hei).2 ▸ List.getElem_mem _
    dsimp only
    split
    · exact hl.push (Evaluation.valid_statement (he e hes)) (by simp [Evaluation.support])
    · exact hl

theorem allValid_uncertainty (input : Text) (possibility inconsistent : Bool) (worlds : Nat) :
    AllValid (uncertainty input possibility inconsistent worlds).sources ∧
      AllValid (uncertainty input possibility inconsistent worlds).mitigations := by
  simp only [uncertainty, allValid_append]
  refine ⟨⟨⟨⟨?_, ?_⟩, ?_⟩, ?_⟩, ?_, ?_⟩ <;> split <;> simp

theorem allValid_evidence (ha : ∀ a ∈ as, AllValid a.rule.texts) :
    AllValid (as.flatMap fun a => a.rule.evidence.map fun e =>
      a.rule.name ++ Text.ofString ": " ++ e) := by
  refine allValid_flatMap.2 fun a has => ?_
  have := ha a has
  simp only [ModalRule.texts, allValid_cons] at this
  obtain ⟨-, hname, -, -, hevidence⟩ := this
  exact allValid_map.2 fun e he => by simp [hname, hevidence e he]

@[simp] theorem valid_accessibilityLevel (x : Single) : (accessibilityLevel x).Valid := by
  unfold accessibilityLevel
  split_ifs <;> exact valid_ofString _

theorem printable_details (hd : ∀ d ∈ ds, AllValid d.operator.texts ∧ d.trigger.Valid)
    (hw : ∀ w ∈ ws, AllValid w.texts) (ha : ∀ a ∈ as, AllValid a.rule.texts)
    (he : ∀ e ∈ es, AllValid e.texts) : (details ds ws as es).Printable := by
  have hoperators : (Json.array (ds.map fun d => .ofMembers
      [("symbol", .string d.operator.symbol), ("name", .string d.operator.name),
        ("strength", .ofSingle d.operator.strength),
        ("trigger", .string d.trigger)])).Printable :=
    Json.printable_array_map.2 fun d hds => by
      have := hd d hds
      simp only [ModalOperator.texts, allValid_cons] at this
      simp [this]
  have hworlds : (Json.array (ws.map World.toJson)).Printable :=
    Json.printable_array_map.2 fun w hws => World.printable_toJson (hw w hws)
  have hevaluations : (Json.array (es.map Evaluation.toJson)).Printable :=
    Json.printable_array_map.2 fun e hes => Evaluation.printable_toJson (he e hes)
  have hrules : AllValid (as.map (·.rule.id)) :=
    allValid_map.2 fun a has => ha a has a.rule.id (by simp [ModalRule.texts])
  exact Json.printable_ofMembers (by simp [hoperators, hworlds, hevaluations, hrules])

theorem printable_answer {r : Registry} (hr : r.Printable) (c : Config) (input : Text)
    (hp : ∀ p ∈ ps, AllValid p.texts) (hd : ∀ d ∈ ds, AllValid d.operator.texts ∧ d.trigger.Valid) :
    (answer r c input ps ds).Printable := by
  have hw := World.allValid_build c ps ds hr.worlds
  have ha : ∀ a ∈ applications r.modalRules.items ds, AllValid a.rule.texts := fun a ha =>
    hr.modalRules _ (mem_of_mem_applications ha).1
  have he : ∀ e ∈ ds.map (Evaluation.ofDetection (World.build c r.worlds.items ps ds) ps),
      AllValid e.texts :=
    List.forall_mem_map.2 fun d hds => Evaluation.allValid_ofDetection hp (hd d hds).1
  exact {
    conclusions := allValid_map.2 fun e hes =>
      Evaluation.valid_statement (he e (List.mem_filter.1 hes).1)
    proof := printable_proof hp hd ha he
    alternatives := by
      refine allValid_append.2 ⟨allValid_flatMap.2 fun e hes =>
        Evaluation.allValid_alternatives (he e hes), ?_⟩
      split <;> simp
    sources := (allValid_uncertainty ..).1
    mitigations := (allValid_uncertainty ..).2
    evidence := allValid_evidence ha
    details := printable_details hd hw ha he }

theorem printable_reason {r : Registry} (hr : r.Printable) (c : Config) (m : Metrics)
    {input : Text} {context : Json} (hi : input.Valid) (hc : context.Printable) :
    (reason r c m input context).1.Printable := by
  unfold reason
  dsimp only
  split
  · exact Result.printable_neutral (valid_ofString _)
      (Json.printable_object.2 (List.forall_mem_nil _))
      allValid_nil
  · split
    · exact Result.printable_neutral (valid_ofString _) (Json.printable_ofMembers (by simp))
        allValid_nil
    · exact printable_answer hr c input (Extraction.allValid_premises hi hc)
        (Detection.allValid_of_mem_detect hr.modalOperators)

end Modal

end Reasoning
