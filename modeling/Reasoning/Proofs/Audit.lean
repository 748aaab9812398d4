/-
  The proof of an answer.

  * `Audited`: a proof that begins with its premises, infers by rules from premises only, and
    ends every conclusion in a deduction or in an instance of an axiom;
  * `Run.Sound`, `Run.Sound.take`: the proof of a run is audited after every match;
  * `reason_audited`: so is the proof of every answer, and no conclusion stands there twice.
-/
import Reasoning.Classical.Reason
import Reasoning.Proofs.Inference
import Reasoning.Proofs.Sanity

namespace Reasoning.Classical

/-! ## Audited proofs -/

/-- The line `u` follows by a deductive rule. -/
structure IsDeduction (rules : List InferenceRule) (l : Ledger) (u : Step) : Prop where
  inference : u.kind = .inference
  inferred : ∃ r ∈ rules, r.kind = .deduction ∧ ∃ used, l.Infers r used u

/-- The line `s` concludes the line `u`, which is a deduction or an instance of an axiom. -/
structure Concludes (rules : List InferenceRule) (axioms : List Axiom) (l : Ledger)
    (u s : Step) : Prop where
  refs : s.refs = [u.seq]
  found : l.at? u.seq = .ok u
  content : u.content = s.content
  why : (IsDeduction rules l u ∧ u.confidence = s.confidence) ∨
    (u.kind = .premise ∧
      ∃ a ∈ axioms, (Pattern.ofText a.statement).Accepts u.content.tokens [])

/-- A proof in which every line can be traced back. -/
structure Audited (rules : List InferenceRule) (axioms : List Axiom) (premises : List Text)
    (l : Ledger) (conclusions : List Text) : Prop where
  wellFormed : l.WellFormed
  /-- The premises come first, in their order, and there are no others. -/
  begins : ∃ first rest, l.steps = first ++ rest ∧
    (first.map fun s => (s.kind, s.content)) = (premises.map fun t => (.premise, t)) ∧
    ∀ s ∈ rest, s.kind ≠ .premise
  inferred : ∀ s ∈ l.steps, s.kind = .inference → l.Inferred rules (· = .premise) s
  concluded : ∀ s ∈ l.steps, s.kind = .conclusion → ∃ u, Concludes rules axioms l u s
  conclusions : (l.steps.filter (·.kind = .conclusion)).map (·.content) = conclusions

variable {rules : List InferenceRule} {axioms : List Axiom} {premises conclusions : List Text}
  {l : Ledger}

theorem IsDeduction.push {u : Step} (h : IsDeduction rules l u) (kind : Step.Kind)
    (content why : Text) (x : Single) (refs : List Nat) :
    IsDeduction rules (l.push kind content why x refs) u := by
  obtain ⟨r, hr, hk, used, hu⟩ := h.inferred
  exact ⟨h.inference, r, hr, hk, used, hu.push ..⟩

theorem Concludes.push {u s : Step} (h : Concludes rules axioms l u s) (kind : Step.Kind)
    (content why : Text) (x : Single) (refs : List Nat) :
    Concludes rules axioms (l.push kind content why x refs) u s where
  refs := h.refs
  found := Ledger.at?_push h.found
  content := h.content
  why := h.why.imp_left fun ⟨hd, hx⟩ => ⟨hd.push .., hx⟩

namespace Audited

variable {content why : Text} {x : Single} {refs : List Nat}

/-- A line that is no premise leaves the lines before it as they were. -/
theorem begins_push (h : Audited rules axioms premises l conclusions) {kind : Step.Kind}
    (hkind : kind ≠ .premise) :
    ∃ first rest, (l.push kind content why x refs).steps = first ++ rest ∧
      (first.map fun s => (s.kind, s.content)) = (premises.map fun t => (.premise, t)) ∧
      ∀ s ∈ rest, s.kind ≠ .premise := by
  obtain ⟨first, rest, hsteps, hfirst, hrest⟩ := h.begins
  refine ⟨first, _, by rw [Ledger.steps_push, hsteps, List.append_assoc], hfirst, fun s hs => ?_⟩
  rcases List.mem_append.1 hs with hs | hs
  · exact hrest s hs
  · rw [List.mem_singleton.1 hs]
    exact hkind

theorem push_inference (h : Audited rules axioms premises l conclusions) {r : InferenceRule}
    {used : List Step} (hwf : (l.push .inference content why x refs).WellFormed)
    (hr : r ∈ rules)
    (hinf : (l.push .inference content why x refs).Infers r used
      ⟨l.nextSeq, .inference, content, why, Score.clamp x, refs⟩)
    (hused : ∀ u ∈ used, u.kind = .premise) :
    Audited rules axioms premises (l.push .inference content why x refs) conclusions where
  wellFormed := hwf
  begins := h.begins_push (by simp)
  inferred s hs hi := by
    rcases Ledger.mem_steps_push.1 hs with hs | rfl
    · exact (h.inferred s hs hi).push ..
    · exact ⟨r, hr, used, hinf, hused⟩
  concluded s hs hc := by
    rcases Ledger.mem_steps_push.1 hs with hs | rfl
    · obtain ⟨u, hu⟩ := h.concluded s hs hc
      exact ⟨u, hu.push ..⟩
    · cases hc
  conclusions := by
    rw [Ledger.steps_push, List.filter_append, List.map_append, h.conclusions]
    exact List.append_nil _

/-- A conclusion of a line that is there. -/
theorem push_conclusion (h : Audited rules axioms premises l conclusions) {u : Step}
    (hu : l.at? u.seq = .ok u) (hcontent : u.content = content)
    (hwhy : (IsDeduction rules l u ∧ u.confidence = Score.clamp x) ∨
      (u.kind = .premise ∧
        ∃ a ∈ axioms, (Pattern.ofText a.statement).Accepts u.content.tokens [])) :
    Audited rules axioms premises (l.push .conclusion content why x [u.seq])
      (conclusions ++ [content]) where
  wellFormed := by
    refine h.wellFormed.push fun n hn => ?_
    obtain ⟨i, hi, hget⟩ := Ledger.at?_eq_ok.1 hu
    rw [List.mem_singleton.1 hn]
    exact h.wellFormed.seq_bounds (List.mem_of_getElem? hget)
  begins := h.begins_push (by simp)
  inferred s hs hi := by
    rcases Ledger.mem_steps_push.1 hs with hs | rfl
    · exact (h.inferred s hs hi).push ..
    · cases hi
  concluded s hs hc := by
    rcases Ledger.mem_steps_push.1 hs with hs | rfl
    · obtain ⟨v, hv⟩ := h.concluded s hs hc
      exact ⟨v, hv.push ..⟩
    · exact ⟨u, rfl, Ledger.at?_push hu, hcontent,
        hwhy.imp_left fun ⟨hd, hx⟩ => ⟨hd.push .., hx⟩⟩
  conclusions := by
    rw [Ledger.steps_push, List.filter_append, List.map_append, h.conclusions]
    rfl

/-- The line of a premise. -/
theorem at?_premise (h : Audited rules axioms premises l conclusions) {i : Nat} {t : Text}
    (hi : premises[i]? = some t) :
    ∃ u, u.seq = i + 1 ∧ l.steps[i]? = some u ∧ u.kind = .premise ∧ u.content = t := by
  obtain ⟨first, rest, hsteps, hfirst, -⟩ := h.begins
  have hget := congrArg (·[i]?) hfirst
  simp only [List.getElem?_map, hi, Option.map_some, Option.map_eq_some_iff] at hget
  obtain ⟨u, hu, hkc⟩ := hget
  obtain ⟨hlt, -⟩ := List.getElem?_eq_some_iff.1 hu
  have hsteps' : l.steps[i]? = some u := by
    rw [hsteps, List.getElem?_append_left hlt, hu]
  rw [Prod.mk.injEq] at hkc
  exact ⟨u, h.wellFormed.numbered i u hsteps', hsteps', hkc.1, hkc.2⟩

theorem tokens_prefix (h : Audited rules axioms premises l conclusions) :
    premises.map Text.tokens <+: l.steps.map fun s => s.content.tokens := by
  obtain ⟨first, rest, hsteps, hfirst, -⟩ := h.begins
  have hcontent := congrArg (List.map fun e => Text.tokens e.2) hfirst
  rw [List.map_map, List.map_map] at hcontent
  refine ⟨rest.map fun s => s.content.tokens, ?_⟩
  rw [hsteps, List.map_append]
  exact congrArg (· ++ _) hcontent.symm

end Audited

/-! ## Premises -/

theorem map_givens {β : Type} {f : Given → β} {g : Proposition → β}
    (h : ∀ p seq, f (.ofProposition axioms p seq) = g p) (ps : List Proposition) :
    (givens axioms ps).map f = ps.map g := by
  unfold givens
  rw [List.map_map, ← List.zipIdx_map_fst 0 ps, List.map_map, List.zipIdx_map_fst]
  exact List.map_congr_left fun e _ => h e.1 (e.2 + 1)

theorem texts_givens (axioms : List Axiom) (ps : List Proposition) :
    (givens axioms ps).map (·.proposition.text) = ps.map (·.text) := by
  refine map_givens (fun p seq => ?_) ps
  unfold Given.ofProposition
  dsimp only
  split <;> rfl

theorem words_givens (axioms : List Axiom) (ps : List Proposition) :
    (givens axioms ps).map (·.words) = (ps.map (·.text)).map Text.tokens := by
  rw [List.map_map]
  exact map_givens (fun p seq => rfl) ps

theorem seq_givens {ps : List Proposition} {i : Nat} {g : Given}
    (h : (givens axioms ps)[i]? = some g) : g.seq = i + 1 := by
  unfold givens at h
  rw [List.getElem?_map, List.getElem?_zipIdx] at h
  cases hp : ps[i]? with
  | none => simp [hp] at h
  | some p =>
    rw [hp] at h
    cases h
    show 0 + i + 1 = i + 1
    omega

theorem instanceOf_givens {ps : List Proposition} {g : Given} (h : g ∈ givens axioms ps) :
    g.instanceOf = axiomInstance? g.proposition.text.tokens axioms := by
  obtain ⟨⟨p, i⟩, -, rfl⟩ := List.mem_map.1 h
  unfold Given.ofProposition
  dsimp only
  split <;> rfl

/-- A proof that has only its premises. -/
theorem steps_start (gs : List Given) :
    (Run.start gs).proof.WellFormed ∧
    ((Run.start gs).proof.steps.map fun s => (s.kind, s.content)) =
      gs.map fun g => (.premise, g.proposition.text) := by
  induction gs using List.reverseRecOn with
  | nil => exact ⟨Ledger.wellFormed_empty, rfl⟩
  | append_singleton gs g ih =>
    have hpush : (Run.start (gs ++ [g])).proof = (Run.start gs).proof.push .premise
        g.proposition.text g.why g.proposition.certainty [] := List.foldl_concat ..
    rw [hpush]
    refine ⟨ih.1.push (by simp), ?_⟩
    rw [Ledger.steps_push, List.map_append, ih.2, List.map_append]
    rfl

theorem audited_start (rules : List InferenceRule) (axioms : List Axiom) (gs : List Given) :
    Audited rules axioms (gs.map (·.proposition.text)) (Run.start gs).proof [] := by
  obtain ⟨hwf, hsteps⟩ := steps_start gs
  have hkind : ∀ s ∈ (Run.start gs).proof.steps, s.kind = .premise := fun s hs => by
    have hmem := List.mem_map_of_mem (f := fun s : Step => (s.kind, s.content)) hs
    rw [hsteps] at hmem
    obtain ⟨g, -, hg⟩ := List.mem_map.1 hmem
    exact (congrArg Prod.fst hg).symm
  refine ⟨hwf, ⟨_, [], (List.append_nil _).symm, ?_, by simp⟩, fun s hs hi => ?_,
    fun s hs hc => ?_, ?_⟩
  · rw [hsteps, List.map_map]
    rfl
  · rw [hkind s hs] at hi
    cases hi
  · rw [hkind s hs] at hc
    cases hc
  · rw [List.filter_eq_nil_iff.2 fun s hs => by simp [hkind s hs]]
    rfl

/-! ## Matches -/

/-- The line `u` is where a deduction stands. -/
structure Deduced.Stands (rules : List InferenceRule) (l : Ledger) (d : Deduced) (u : Step) :
    Prop where
  seq : u.seq = d.seq
  found : l.at? u.seq = .ok u
  content : u.content = d.conclusion
  confidence : u.confidence = Score.clamp d.confidence
  deduction : IsDeduction rules l u

theorem Deduced.Stands.push {d : Deduced} {u : Step} (h : d.Stands rules l u) (kind : Step.Kind)
    (content why : Text) (x : Single) (refs : List Nat) :
    d.Stands rules (l.push kind content why x refs) u :=
  ⟨h.seq, Ledger.at?_push h.found, h.content, h.confidence, h.deduction.push ..⟩

/-- What holds of a run at any time: its proof is audited, and its deductions stand there, are
    different, and pass the check of their sanity. -/
structure Run.Sound (rules : List InferenceRule) (axioms : List Axiom) (gs : List Given)
    (run : Run) : Prop where
  audited : Audited rules axioms (gs.map (·.proposition.text)) run.proof []
  stands : ∀ d ∈ run.deduced, ∃ u, d.Stands rules run.proof u
  distinct : (run.deduced.map (·.conclusion.canonical)).Nodup
  accepted : ∀ d ∈ run.deduced, rejection? d.conclusion (gs.map (·.proposition)) = none

variable {ps : List Proposition} {r : InferenceRule} {m : RuleMatch} {ms : List RuleMatch}
  {run : Run}

/-- The line that a match writes. -/
theorem Audited.push_match (h : Audited rules axioms (ps.map (·.text)) l conclusions)
    (hr : r ∈ rules) (ha : r.apply ((givens axioms ps).map (·.words)) = .ok ms) (hm : m ∈ ms)
    (x : Single) :
    Audited rules axioms (ps.map (·.text))
      (l.push .inference m.conclusion r.name x ((taken (givens axioms ps) m).map (·.seq)))
      conclusions ∧
    (r.kind = .deduction → ∃ u, Deduced.Stands rules
      (l.push .inference m.conclusion r.name x ((taken (givens axioms ps) m).map (·.seq)))
      ⟨m.conclusion, r.name, x, l.nextSeq⟩ u) := by
  rw [words_givens] at ha
  have hlt : ∀ i ∈ m.premises, i < (givens axioms ps).length := fun i hi => by
    have := (InferenceRule.apply_sound ha hm).2.1 i hi
    rwa [List.length_map, ← texts_givens axioms, List.length_map] at this
  have hseq : (taken (givens axioms ps) m).map (·.seq) = m.premises.map (· + 1) :=
    map_filterMap_numbered (fun i g hg => seq_givens hg) hlt
  rw [hseq]
  obtain ⟨hwf, hinf⟩ := Ledger.infers_push h.wellFormed h.tokens_prefix ha hm x
  refine ⟨h.push_inference hwf hr hinf fun u hu => ?_, fun hk => ?_⟩
  · -- What is inferred lies behind the premises, where no match reaches.
    obtain ⟨i, hi, hiu⟩ := List.mem_filterMap.1 hu
    have hilt := (InferenceRule.apply_sound ha hm).2.1 i hi
    rw [List.length_map] at hilt
    obtain ⟨v, -, hv, hvk, -⟩ := h.at?_premise (List.getElem?_eq_getElem hilt)
    rw [hv] at hiu
    cases hiu
    exact hvk
  · refine ⟨_, rfl, hwf.at?_seq (Ledger.mem_steps_push.2 (.inr rfl)), rfl, rfl, rfl, r, hr, hk,
      _, hinf⟩

theorem Run.not_hasDeduced_iff {statement : Text} : run.hasDeduced statement = false ↔
    statement.canonical ∉ run.deduced.map (·.conclusion.canonical) := by
  unfold Run.hasDeduced
  rw [List.any_eq_false, List.mem_map]
  simp

/-- A match keeps a run sound. -/
theorem Run.Sound.take (h : run.Sound rules axioms (givens axioms ps)) (hr : r ∈ rules)
    (ha : r.apply ((givens axioms ps).map (·.words)) = .ok ms) (hm : m ∈ ms) :
    (run.take (givens axioms ps) r m).Sound rules axioms (givens axioms ps) := by
  have haud := h.audited
  rw [texts_givens] at haud
  unfold Run.take
  split
  · exact ⟨h.audited, h.stands, h.distinct, h.accepted⟩
  · rename_i hacc
    dsimp only
    obtain ⟨haud', hstands⟩ := haud.push_match hr ha hm
      (support r.confidence ((taken (givens axioms ps) m).map (·.proposition.certainty)))
    rw [← texts_givens axioms] at haud'
    have hold : ∀ d ∈ run.deduced, ∃ u, d.Stands rules (run.proof.push .inference m.conclusion
        r.name (support r.confidence ((taken (givens axioms ps) m).map (·.proposition.certainty)))
        ((taken (givens axioms ps) m).map (·.seq))) u := fun d hd => by
      obtain ⟨u, hu⟩ := h.stands d hd
      exact ⟨u, hu.push ..⟩
    split
    · rename_i hk
      split
      · exact ⟨haud', hold, h.distinct, h.accepted⟩
      · rename_i hnew
        rw [Bool.not_eq_true] at hnew
        refine ⟨haud', fun d hd => ?_, ?_, fun d hd => ?_⟩
        · rcases List.mem_append.1 hd with hd | hd
          · exact hold d hd
          · rw [List.mem_singleton.1 hd]
            exact hstands hk
        · rw [List.map_append, List.map_singleton, ← List.concat_eq_append]
          exact h.distinct.concat (Run.not_hasDeduced_iff.1 hnew)
        · rcases List.mem_append.1 hd with hd | hd
          · exact h.accepted d hd
          · rw [List.mem_singleton.1 hd]
            exact hacc
    · exact ⟨haud', hold, h.distinct, h.accepted⟩

theorem Run.Sound.apply (h : run.Sound rules axioms (givens axioms ps)) (hr : r ∈ rules) :
    (run.apply (givens axioms ps) r).Sound rules axioms (givens axioms ps) := by
  unfold Run.apply
  split
  · rename_i ms ha
    exact List.foldlRecOn ms (Run.take (givens axioms ps) r)
      (motive := fun run => run.Sound rules axioms (givens axioms ps)) h
      fun run h m hm => h.take hr ha hm
  · exact ⟨h.audited, h.stands, h.distinct, h.accepted⟩

/-- The rules keep a run sound. -/
theorem Run.sound (rules : List InferenceRule) (axioms : List Axiom) (ps : List Proposition) :
    (rules.foldl (Run.apply (givens axioms ps)) (.start (givens axioms ps))).Sound rules axioms
      (givens axioms ps) :=
  List.foldlRecOn rules (Run.apply (givens axioms ps))
    (motive := fun run => run.Sound rules axioms (givens axioms ps))
    ⟨audited_start .., fun d hd => (by cases hd), List.nodup_nil, fun d hd => (by cases hd)⟩
    fun run h r hr => h.apply hr

/-! ## Conclusions -/

/-- What holds while the conclusions are written. -/
structure Concluded.Sound (rules : List InferenceRule) (axioms : List Axiom) (gs : List Given)
    (c : Concluded) : Prop where
  audited : Audited rules axioms (gs.map (·.proposition.text)) c.proof c.conclusions
  distinct : (c.conclusions.map Text.canonical).Nodup

theorem conclusions_addDeduced (ds : List Deduced) (c : Concluded) :
    (ds.foldl Concluded.addDeduced c).conclusions = c.conclusions ++ ds.map (·.conclusion) := by
  induction ds generalizing c with
  | nil => exact (List.append_nil _).symm
  | cons d ds ih =>
    rw [List.foldl_cons, ih, Concluded.addDeduced, List.append_assoc]
    rfl

/-- Concluding deductions that stand in a proof keeps it audited. -/
theorem audited_addDeduced {ds : List Deduced} {c : Concluded}
    (h : Audited rules axioms premises c.proof c.conclusions)
    (hs : ∀ d ∈ ds, ∃ u, d.Stands rules c.proof u) :
    Audited rules axioms premises (ds.foldl Concluded.addDeduced c).proof
      (ds.foldl Concluded.addDeduced c).conclusions := by
  induction ds generalizing c with
  | nil => exact h
  | cons d ds ih =>
    rw [List.foldl_cons]
    obtain ⟨u, hu⟩ := hs d (List.mem_cons_self ..)
    refine ih ?_ fun e he => ?_
    · unfold Concluded.addDeduced
      rw [← hu.seq]
      exact h.push_conclusion hu.found hu.content (.inl ⟨hu.deduction, hu.confidence⟩)
    · obtain ⟨v, hv⟩ := hs e (List.mem_cons_of_mem _ he)
      exact ⟨v, hv.push ..⟩

/-- Concluding an instance of an axiom keeps what holds. -/
theorem Concluded.Sound.addInstance {c : Concluded} {g : Given}
    (h : c.Sound rules axioms (givens axioms ps)) (hg : g ∈ givens axioms ps) :
    (c.addInstance g).Sound rules axioms (givens axioms ps) := by
  unfold Concluded.addInstance
  split
  · exact h
  · rename_i a ha
    dsimp only
    split
    · exact h
    · rename_i hnew
      rw [instanceOf_givens hg] at ha
      obtain ⟨ham, hacc⟩ := axiomInstance?_accepts ha
      obtain ⟨i, hi⟩ := List.mem_iff_getElem?.1 hg
      have ht : ((givens axioms ps).map (·.proposition.text))[i]? = some g.proposition.text := by
        rw [List.getElem?_map, hi]
        rfl
      obtain ⟨u, hseq, hget, hkind, hcontent⟩ := h.audited.at?_premise ht
      rw [seq_givens hi, ← hseq]
      have hfound := h.audited.wellFormed.at?_seq (List.mem_of_getElem? hget)
      refine ⟨h.audited.push_conclusion hfound hcontent (.inr ⟨hkind, a, ham, ?_⟩), ?_⟩
      · rwa [hcontent]
      · rw [List.map_append, List.map_singleton, ← List.concat_eq_append]
        refine h.distinct.concat fun hs => hnew ?_
        obtain ⟨v, hv, hvs⟩ := List.mem_map.1 hs
        exact List.any_eq_true.2 ⟨v, hv, beq_iff_eq.2 hvs⟩

/-- The conclusions of a sound run. -/
theorem Run.Sound.conclude (h : run.Sound rules axioms (givens axioms ps)) :
    (run.conclude (givens axioms ps)).Sound rules axioms (givens axioms ps) := by
  unfold Run.conclude
  refine List.foldlRecOn (givens axioms ps) Concluded.addInstance
    (motive := fun c => c.Sound rules axioms (givens axioms ps)) ⟨?_, ?_⟩
    fun c h g hg => h.addInstance hg
  · exact audited_addDeduced h.audited h.stands
  · rw [conclusions_addDeduced, List.nil_append, List.map_map]
    exact h.distinct

/-! ## Answers -/

theorem audited_empty (rules : List InferenceRule) (axioms : List Axiom) :
    Audited rules axioms [] .empty [] :=
  audited_start rules axioms []

/-- **Every answer can be traced back.**  Its proof begins with one line for each premise; every
    inference names different premises, which the antecedents of its rule fit, and is what the
    rule makes of them; every conclusion names one line, a deduction with its content and its
    confidence or an instance of an axiom with its content.  The conclusions of the answer are
    those of the proof in their order, and no two of them say the same. -/
theorem reason_audited (r : Registry) (c : Config) (m : Metrics) (input : Text) (context : Json) :
    let result := (reason r c m input context).1
    Audited r.inferenceRules.items r.axioms.items
      ((Extraction.extract input context).premises.map (·.text)) result.proof
      result.conclusions ∧
    (result.conclusions.map Text.canonical).Nodup := by
  dsimp only
  unfold reason
  dsimp only
  split
  · rename_i hempty
    rw [List.isEmpty_iff.1 hempty]
    exact ⟨audited_empty .., List.nodup_nil⟩
  · have h := (Run.sound r.inferenceRules.items r.axioms.items
      (Extraction.extract input context).premises).conclude
    rw [← texts_givens r.axioms.items]
    exact ⟨h.audited, h.distinct⟩

end Reasoning.Classical
