/-
  Arguments from many conditionals.

  From `if a then b` and `a` the check of an argument concludes `b`.  With many such pairs among
  the premises it concludes the first of them only: a rule looks at its first sixteen matches in
  every round, which are the same ones again, and nothing is added to 64 statements or more.

  * `Chain.Holds`: what a chain knows, as sentences;
  * `Chain.foldl_take_eq_self`, `Chain.foldl_take_fresh`: what is added of the matches of a rule
    when it is known, and when it is new;
  * `Chain.run_modus_ponens`: a run on conditionals and their first parts;
  * `validateArgument_modus_ponens_iff`: the conclusions that are reached.
-/
import Reasoning.Proofs.Budget
import Reasoning.Proofs.Conditionals

namespace Reasoning.Classical

namespace Chain

variable {rules : List InferenceRule} {target : Text} {ch : Chain} {r : InferenceRule}
  {m : RuleMatch} {ms : List RuleMatch} {ss : List (List Text)} {ws : List Text}

/-- The chain knows these sentences, in this order, and has not reached its target. -/
structure Holds (ch : Chain) (ss : List (List Text)) : Prop where
  texts : ch.texts = ss.map (Text.join " ")
  ongoing : ch.reached = false

/-- Sentences of plain words that say something. -/
def Sayable (ss : List (List Text)) : Prop := ∀ ws ∈ ss, ws ≠ [] ∧ ∀ w ∈ ws, w.Plain

theorem Sayable.canonical (h : Sayable ss) :
    (ss.map (Text.join " ")).map Text.canonical = ss.map (Text.join " ") := by
  rw [List.map_map]
  exact List.map_congr_left fun ws hws => Text.canonical_join (h ws hws).2

theorem Holds.tokens (h : ch.Holds ss) (hss : Sayable ss) :
    (ch.known.map fun k => k.proposition.text.tokens) = ss := by
  have htexts : (ch.known.map fun k => k.proposition.text.tokens) = ch.texts.map Text.tokens := by
    rw [Chain.texts, List.map_map]
    rfl
  rw [htexts, h.texts, List.map_map]
  refine (List.map_congr_left fun ws hws => ?_).trans (List.map_id _)
  exact Text.tokens_join fun w hw => ((hss ws hws).2 w hw).isWord

theorem Holds.knows_iff (h : ch.Holds ss) (hss : Sayable ss)
    (hws : ∀ w ∈ ws, w.Plain) : ch.knows (Text.join " " ws) ↔ ws ∈ ss := by
  rw [Chain.knows_iff, h.texts, hss.canonical, List.mem_map]
  constructor
  · rintro ⟨us, hus, he⟩
    rwa [← (Text.join_inj (hss us hus).2 hws).1 he]
  · exact fun hmem => ⟨ws, hmem, rfl⟩

theorem Holds.length (h : ch.Holds ss) : ch.known.length = ss.length := by
  rw [← length_texts, h.texts, List.length_map]

/-! ## Premises -/

/-- Different sentences are premises as they are written. -/
theorem holds_premises (hss : Sayable ss) (hdistinct : ss.Nodup) :
    ((ss.map (Text.join " ")).foldl addPremise .empty).Holds ss := by
  induction ss using List.reverseRecOn with
  | nil => exact ⟨rfl, rfl⟩
  | append_singleton ss ws ih =>
    have hold : Sayable ss := fun us hus => hss us (List.mem_append_left _ hus)
    obtain ⟨hne, hws⟩ := hss ws (by simp)
    rw [List.nodup_append] at hdistinct
    obtain ⟨hnodup, -, hnew⟩ := hdistinct
    obtain hch := ih hold hnodup
    rw [List.map_append, List.map_singleton, List.foldl_concat]
    rcases addPremise_cases ((ss.map (Text.join " ")).foldl addPremise .empty)
      (Text.join " " ws) with ⟨hknown, -⟩ | ⟨p, -, -, hp, he⟩
    · rw [Connective.normalize_join hws, Text.canonical_join hws] at hknown
      have hmem := (hch.knows_iff hold hws).1 (hknown (Text.hasAlnum_join hne hws))
      exact absurd rfl (hnew ws hmem ws (List.mem_singleton_self ws))
    · rw [Connective.normalize_join hws, Text.trim_join hws] at hp
      refine ⟨?_, ?_⟩
      · rw [he, texts_extend, hch.texts, hp, List.map_append, List.map_singleton]
      · rw [he]
        exact hch.ongoing

/-! ## The matches of a rule -/

theorem take_eq_self (h : ch.reached ∨ ch.knows m.conclusion.canonical ∨
    maxStatements ≤ ch.known.length) : ch.take target r m = ch := by
  unfold take
  rw [if_pos]
  simp only [Bool.or_eq_true, decide_eq_true_eq]
  tauto

/-- Nothing is added if all is known, or enough, or the target is reached. -/
theorem foldl_take_eq_self (h : ∀ m ∈ ms, ch.reached ∨ ch.knows m.conclusion.canonical ∨
    maxStatements ≤ ch.known.length) : ms.foldl (take target r) ch = ch := by
  induction ms with
  | nil => rfl
  | cons m ms ih =>
    obtain ⟨hm, hms⟩ := List.forall_mem_cons.1 h
    rw [List.foldl_cons, take_eq_self hm, ih hms]

/-- Rules that find nothing add nothing. -/
theorem foldl_apply_eq_self {wss : List (List Text)} (h : ∀ r ∈ rules, r.apply wss = .ok []) :
    rules.foldl (Chain.apply target wss) ch = ch := by
  refine List.foldlRecOn rules _ (motive := (· = ch)) rfl fun ch' hch r hr => ?_
  unfold Chain.apply
  rw [h r hr, hch]
  split <;> rfl

/-- A statement that is new and accepted is added while there is room. -/
theorem take_of_fresh (hr : ch.reached = false) (hk : ch.knows m.conclusion.canonical = false)
    (haccepted : rejection? m.conclusion (ch.known.map (·.proposition)) = none)
    (hroom : ch.known.length < maxStatements) :
    ch.take target r m = if m.conclusion.canonical == target then
      (ch.derive r m).conclude m.conclusion else ch.derive r m := by
  unfold take
  rw [if_neg]
  simp [hr, hk, haccepted, hroom]

theorem Holds.derive (h : ch.Holds ss) (hm : m.conclusion = Text.join " " ws) :
    (ch.derive r m).Holds (ss ++ [ws]) where
  texts := by rw [texts_derive, h.texts, hm, List.map_append, List.map_singleton]
  ongoing := h.ongoing

/-- A new word is accepted, and is added while there is room. -/
theorem Holds.take_word (h : ch.Holds ss) (target : Text) (r : InferenceRule) (hss : Sayable ss)
    (hlong : ∀ us ∈ ss, us.length ≠ 2) (hw : Ordinary m.conclusion) (hnew : [m.conclusion] ∉ ss)
    (hroom : ch.known.length < maxStatements) :
    ch.take target r m = if m.conclusion == target then
      (ch.derive r m).conclude m.conclusion else ch.derive r m := by
  have hunknown : ch.knows m.conclusion.canonical = false := by
    rw [hw.canonical, ← Bool.not_eq_true]
    exact fun hk => hnew ((h.knows_iff hss hw.plain_singleton).1 hk)
  have haccepted : rejection? m.conclusion (ch.known.map (·.proposition)) = none := by
    refine rejection?_plain hw.plain hw.unmarked fun p hp => ?_
    obtain ⟨k, hk, rfl⟩ := List.mem_map.1 hp
    have htext : k.proposition.text ∈ ch.texts := List.mem_map_of_mem hk
    rw [h.texts] at htext
    obtain ⟨us, hus, he⟩ := List.mem_map.1 htext
    exact ⟨us, (hss us hus).2, he.symm, hlong us hus⟩
  rw [take_of_fresh h.ongoing hunknown haccepted hroom, hw.canonical]

/-- **What is added of new words.**  The target is reached if and only if it is among the words
    that there is room for, and otherwise these words are added. -/
theorem Holds.foldl_take_fresh (h : ch.Holds ss) (target : Text) (r : InferenceRule)
    (hss : Sayable ss)
    (hms : ms.map (·.conclusion) = ws) (hws : ∀ w ∈ ws, Ordinary w)
    (hfresh : (ss ++ ws.map ([·])).Nodup) (hlong : ∀ us ∈ ss, us.length ≠ 2) :
    ((ms.foldl (take target r) ch).reached ↔
      target ∈ ws.take (maxStatements - ch.known.length)) ∧
    ((ms.foldl (take target r) ch).reached = false → (ms.foldl (take target r) ch).Holds
      (ss ++ (ws.take (maxStatements - ch.known.length)).map ([·]))) := by
  induction ms generalizing ch ss ws with
  | nil =>
    obtain rfl := hms
    simp [h.ongoing, h]
  | cons m ms ih =>
    obtain rfl := hms
    rw [List.map_cons] at hws hfresh ⊢
    obtain ⟨hw, hrest⟩ := List.forall_mem_cons.1 hws
    rw [List.foldl_cons]
    by_cases hroom : ch.known.length < maxStatements
    · obtain ⟨room, hroom'⟩ : ∃ room, maxStatements - ch.known.length = room + 1 :=
        ⟨maxStatements - ch.known.length - 1, by omega⟩
      have hnew : [m.conclusion] ∉ ss := fun hmem => by
        rw [List.nodup_append] at hfresh
        exact hfresh.2.2 _ hmem _ (List.mem_map_of_mem (List.mem_cons_self ..)) rfl
      rw [h.take_word target r hss hlong hw hnew hroom, hroom', List.take_succ_cons]
      have hderive : (ch.derive r m).Holds (ss ++ [[m.conclusion]]) := h.derive rfl
      by_cases htarget : m.conclusion = target
      · rw [if_pos (beq_iff_eq.2 htarget), foldl_take_eq_self fun _ _ => .inl rfl]
        exact ⟨iff_of_true rfl (htarget ▸ List.mem_cons_self ..), fun hr => nomatch hr⟩
      · have hsay : Sayable (ss ++ [[m.conclusion]]) := List.forall_mem_append.2
          ⟨hss, List.forall_mem_singleton.2 ⟨List.cons_ne_nil _ _, hw.plain_singleton⟩⟩
        have hlong' : ∀ us ∈ ss ++ [[m.conclusion]], us.length ≠ 2 := List.forall_mem_append.2
          ⟨hlong, List.forall_mem_singleton.2 (by simp)⟩
        have hlength : maxStatements - (ch.derive r m).known.length = room := by
          rw [hderive.length, List.length_append, ← h.length, List.length_singleton]
          omega
        obtain ⟨hreached, hholds⟩ := ih hderive hsay rfl hrest (by simpa using hfresh) hlong'
        rw [hlength] at hreached hholds
        rw [if_neg (by simpa using htarget), hreached, List.mem_cons]
        refine ⟨⟨.inr, fun hmem => hmem.resolve_left fun he => htarget he.symm⟩, fun hr => ?_⟩
        rw [List.map_cons, ← List.singleton_append, ← List.append_assoc]
        exact hholds hr
    · have hnone : maxStatements - ch.known.length = 0 := by omega
      rw [take_eq_self (.inr (.inr (by omega))),
        foldl_take_eq_self fun _ _ => .inr (.inr (by omega)), hnone, List.take_zero, List.map_nil,
        List.append_nil, h.ongoing]
      exact ⟨by simp, fun _ => h⟩

/-! ## Runs -/

/-- A chain to which a round adds nothing stays as it is. -/
theorem run_eq_self (h : ch.round target rules = ch) (budget rounds : Nat) :
    (run target rules budget ch rounds).1 = ch := by
  cases budget with
  | zero => rfl
  | succ budget => rw [run_succ, h, if_pos (.inr rfl)]

variable {pairs : List (Text × Text)} {extra : List Text}

theorem sayable_statements {singles : List Text} (hpairs : ∀ p ∈ pairs, Ordinary p.1 ∧ Ordinary p.2)
    (hsingles : ∀ w ∈ singles, Ordinary w) : Sayable (statements pairs singles) := by
  intro ws hws
  rcases mem_statements.1 hws with ⟨p, hp, rfl⟩ | ⟨w, hw, rfl⟩
  · exact ⟨List.cons_ne_nil _ _, plain_conditional (hpairs p hp)⟩
  · exact ⟨List.cons_ne_nil _ _, (hsingles w hw).plain_singleton⟩

theorem ordinary_seconds (hpairs : ∀ p ∈ pairs, Ordinary p.1 ∧ Ordinary p.2) {singles : List Text}
    (hsub : singles.Sublist (pairs.map Prod.snd)) : ∀ w ∈ singles, Ordinary w := by
  intro w hw
  obtain ⟨p, hp, rfl⟩ := List.mem_map.1 (hsub.mem hw)
  exact (hpairs p hp).2

theorem nodup_statements {singles : List Text} (hpairs : pairs.Nodup) (hsingles : singles.Nodup) :
    (statements pairs singles).Nodup := by
  unfold statements
  rw [List.nodup_append]
  refine ⟨hpairs.map conditional_injective, hsingles.map fun _ _ => List.singleton_inj.1, ?_⟩
  rintro _ hws _ hws' rfl
  obtain ⟨p, -, rfl⟩ := List.mem_map.1 hws
  obtain ⟨w, -, he⟩ := List.mem_map.1 hws'
  cases he

theorem length_ne_of_mem_statements {singles : List Text} :
    ∀ ws ∈ statements pairs singles, ws.length ≠ 2 := by
  intro ws hws
  rcases mem_statements.1 hws with ⟨p, -, rfl⟩ | ⟨w, -, rfl⟩
  · simp [conditional]
  · simp

theorem statements_append (singles extra : List Text) :
    statements pairs (singles ++ extra) = statements pairs singles ++ extra.map ([·]) := by
  unfold statements
  rw [List.map_append, List.append_assoc]

/-- Modus ponens comes first, and what the other rules want besides a conditional are chained
    conditionals or other statements. -/
structure LedByModusPonens (rules : List InferenceRule) : Prop where
  first : rules.head?.map (fun r => (r.antecedents, r.consequent)) =
    some (Text.ofStrings ["if P then Q|P implies Q|when P then Q", "P"], Text.ofString "Q")
  others : ∀ r ∈ rules.tail, r.Idle ∨
    r.antecedents = Text.ofStrings ["if P then Q|P implies Q", "if Q then R|Q implies R"]

/-- A round on conditionals, their first parts and some of their second parts is at work with
    the matches of modus ponens. -/
theorem Holds.round_modus_ponens (target : Text) (hrules : LedByModusPonens rules)
    (hpairs : ∀ p ∈ pairs, Ordinary p.1 ∧ Ordinary p.2)
    (hdistinct : (pairs.map Prod.fst ++ pairs.map Prod.snd).Nodup)
    (hextra : extra.Sublist (pairs.map Prod.snd))
    (h : ch.Holds (statements pairs (pairs.map Prod.fst ++ extra))) :
    ∃ (r : InferenceRule) (ms : List RuleMatch),
      ms.map (·.conclusion) = (pairs.map Prod.snd).take InferenceRule.maxMatches ∧
      ch.round target rules = ms.foldl (take target r) ch := by
  have hextra' := ordinary_seconds hpairs hextra
  have hsingles : ∀ w ∈ pairs.map Prod.fst ++ extra, Ordinary w := List.forall_mem_append.2
    ⟨List.forall_mem_map.2 fun p hp => (hpairs p hp).1, hextra'⟩
  obtain ⟨-, hseconds, hdisjoint⟩ := List.nodup_append.1 hdistinct
  have hchain : ∀ p ∈ pairs, ∀ u ∈ pairs, p.2 ≠ u.1 := fun p hp u hu he =>
    hdisjoint _ (List.mem_map_of_mem hu) _ (List.mem_map_of_mem hp) he.symm
  obtain ⟨r, others, rfl⟩ := List.exists_cons_of_ne_nil (l := rules) fun hnil => by
    have hfirst := hrules.first
    rw [hnil] at hfirst
    cases hfirst
  obtain ⟨hantecedents, hconsequent⟩ := Prod.mk.inj (Option.some.inj hrules.first)
  obtain ⟨ms, hms, hconclusions⟩ := InferenceRule.apply_modus_ponens hantecedents hconsequent hpairs
    hextra' (hdistinct.sublist (hextra.append_left _)) hseconds
  refine ⟨r, ms, hconclusions, ?_⟩
  have hothers : ∀ u ∈ others,
      u.apply (statements pairs (pairs.map Prod.fst ++ extra)) = .ok [] := by
    intro u hu
    rcases hrules.others u hu with hidle | hsyllogism
    · exact hidle.apply_eq_nil
    · refine InferenceRule.apply_eq_nil (by rw [hsyllogism]; decide) fun is b => ?_
      rw [hsyllogism]
      exact InferenceRule.not_threaded_syllogism (by decide) (by decide) hpairs hchain is
  unfold round
  rw [h.tokens (sayable_statements hpairs hsingles), List.foldl_cons]
  have hfirst : ch.apply target (statements pairs (pairs.map Prod.fst ++ extra)) r =
      ms.foldl (take target r) ch := by
    unfold Chain.apply
    rw [h.ongoing, hms]
    rfl
  rw [hfirst, foldl_apply_eq_self hothers]

/-- Another round finds the same matches, and adds nothing: each of them is known if there is room
    for all. -/
theorem Holds.round_eq_self (target : Text) (hrules : LedByModusPonens rules)
    (hpairs : ∀ p ∈ pairs, Ordinary p.1 ∧ Ordinary p.2)
    (hdistinct : (pairs.map Prod.fst ++ pairs.map Prod.snd).Nodup)
    (h : ch.Holds (statements pairs (pairs.map Prod.fst ++
      ((pairs.map Prod.snd).take InferenceRule.maxMatches).take
        (maxStatements - 2 * pairs.length)))) :
    ch.round target rules = ch := by
  have hsub : ((pairs.map Prod.snd).take InferenceRule.maxMatches).Sublist (pairs.map Prod.snd) :=
    List.take_sublist ..
  obtain ⟨r, ms, hms, hround⟩ := h.round_modus_ponens target hrules hpairs hdistinct
    ((List.take_sublist ..).trans hsub)
  rw [hround]
  refine foldl_take_eq_self fun m hm => .inr ?_
  have hmem : m.conclusion ∈ (pairs.map Prod.snd).take InferenceRule.maxMatches :=
    hms ▸ List.mem_map_of_mem hm
  by_cases hroom : ((pairs.map Prod.snd).take InferenceRule.maxMatches).length ≤
      maxStatements - 2 * pairs.length
  · left
    rw [List.take_of_length_le hroom] at h
    have hwords := ordinary_seconds hpairs hsub
    have hsingles := List.forall_mem_append.2
      ⟨List.forall_mem_map.2 fun p hp => (hpairs p hp).1, hwords⟩
    rw [(hwords _ hmem).canonical]
    refine (h.knows_iff (sayable_statements hpairs hsingles)
      (hwords _ hmem).plain_singleton).2 (mem_statements.2 (.inr ⟨_, ?_, rfl⟩))
    exact List.mem_append_right _ hmem
  · right
    rw [h.length, statements, List.length_append, List.length_map, List.length_map,
      List.length_append, List.length_map, List.length_take]
    omega

/-- **A run on conditionals and their first parts.**  The target is reached in the first round if
    it is one of the second parts that modus ponens looks at and that there is room for, and is
    not reached later otherwise. -/
theorem Holds.run_modus_ponens (hrules : LedByModusPonens rules)
    (hpairs : ∀ p ∈ pairs, Ordinary p.1 ∧ Ordinary p.2)
    (hdistinct : (pairs.map Prod.fst ++ pairs.map Prod.snd).Nodup)
    (h : ch.Holds (statements pairs (pairs.map Prod.fst))) (budget : Nat) :
    (run target rules (budget + 1) ch 0).1.reached ↔
      target ∈ ((pairs.map Prod.snd).take InferenceRule.maxMatches).take
        (maxStatements - 2 * pairs.length) := by
  have hlength : ch.known.length = 2 * pairs.length := by
    rw [h.length, statements, List.length_append, List.length_map, List.length_map,
      List.length_map]
    omega
  have hsub : ((pairs.map Prod.snd).take InferenceRule.maxMatches).Sublist (pairs.map Prod.snd) :=
    List.take_sublist ..
  have hwords := ordinary_seconds hpairs hsub
  have hfirsts : ∀ w ∈ pairs.map Prod.fst, Ordinary w :=
    List.forall_mem_map.2 fun p hp => (hpairs p hp).1
  have hfresh : (statements pairs (pairs.map Prod.fst) ++
      ((pairs.map Prod.snd).take InferenceRule.maxMatches).map ([·])).Nodup := by
    rw [← statements_append]
    exact nodup_statements (List.nodup_append.1 hdistinct).1.of_map
      (hdistinct.sublist (hsub.append_left _))
  obtain ⟨r, ms, hms, hround⟩ := Holds.round_modus_ponens target hrules hpairs hdistinct
    (List.nil_sublist _) (by rwa [List.append_nil])
  obtain ⟨hreached, hholds⟩ := h.foldl_take_fresh target r
    (sayable_statements hpairs hfirsts) hms hwords hfresh length_ne_of_mem_statements
  rw [← hround, hlength] at hreached hholds
  rw [run_succ]
  split
  · exact hreached
  · rename_i hgo
    rw [not_or, Bool.not_eq_true] at hgo
    have hnext := hholds hgo.1
    rw [← statements_append] at hnext
    have hsame : (ch.round target rules).round target rules = ch.round target rules :=
      hnext.round_eq_self target hrules hpairs hdistinct
    rw [run_eq_self hsame, hreached]

end Chain

theorem text_conditional (p : Text × Text) :
    Text.join " " (conditional p) =
      Text.ofString "if " ++ p.1 ++ Text.ofString " then " ++ p.2 := by
  have hif : Text.ofString "if " = Text.ofString "if" ++ Text.ofString " " := by decide
  have hthen : Text.ofString " then " =
      Text.ofString " " ++ (Text.ofString "then" ++ Text.ofString " ") := by decide
  simp only [conditional, Text.join_cons_cons, Text.join, hif, hthen, List.append_assoc]

/-- The built-in deductions. -/
theorem ledByModusPonens_seeded :
    Chain.LedByModusPonens (Registry.seeded.inferenceRules.items.filter takesPart) where
  first := by decide +kernel
  others := by decide +kernel

/-- No built-in axiom is an axiom of a single word. -/
theorem axiomInstance?_seeded (w : Text) :
    axiomInstance? [w] Registry.seeded.axioms.items = none := by
  have hlong : ∀ a ∈ Registry.seeded.axioms.items, ∀ t ∈ (Pattern.ofText a.statement).templates,
      2 ≤ t.length := by
    decide +kernel
  rw [← Option.not_isSome_iff_eq_none, axiomInstance?_isSome_iff]
  rintro ⟨a, ha, t, ht, b, hreads⟩
  have hfilled : b.Filled := fun x vs hx => (hreads.piece x vs rfl hx).1
  exact absurd (hreads.spells.length_le hfilled) (Nat.not_le.2 (hlong a ha t ht))

/-- The texts of conditionals. -/
def conditionalTexts (pairs : List (Text × Text)) : List Text :=
  pairs.map fun p => Text.ofString "if " ++ p.1 ++ Text.ofString " then " ++ p.2

section
variable {c : Config} {pairs : List (Text × Text)} {p : Text × Text}

/-- The second part of a conditional is concluded if modus ponens looks at it and there is room
    for it. -/
theorem valid_modus_ponens (hrounds : 1 ≤ c.maxDerivationRounds)
    (hwords : ∀ p ∈ pairs, Ordinary p.1 ∧ Ordinary p.2)
    (hdistinct : (pairs.map Prod.fst ++ pairs.map Prod.snd).Nodup) (hmem : p ∈ pairs) :
    (validateArgument .seeded c (conditionalTexts pairs ++ pairs.map Prod.fst) p.2).valid ↔
      p.2 ∈ ((pairs.map Prod.snd).take InferenceRule.maxMatches).take
        (Chain.maxStatements - 2 * pairs.length) := by
  have hp := hwords p hmem
  have hpremises : conditionalTexts pairs ++ pairs.map Prod.fst =
      (statements pairs (pairs.map Prod.fst)).map (Text.join " ") := by
    unfold statements conditionalTexts
    rw [List.map_append, List.map_map, List.map_map]
    congr 1
    · exact List.map_congr_left fun q _ => (text_conditional q).symm
    · exact (List.map_congr_left fun q _ => rfl).trans (List.map_id _).symm
  have htarget : (Connective.normalize p.2).canonical = p.2 := by
    rw [show p.2 = Text.join " " [p.2] from rfl, Connective.normalize_join hp.2.plain_singleton]
    exact hp.2.canonical
  have hfirsts : ∀ w ∈ pairs.map Prod.fst, Ordinary w :=
    List.forall_mem_map.2 fun p hp => (hwords p hp).1
  obtain ⟨hnodup, -, hdisjoint⟩ := List.nodup_append.1 hdistinct
  have hstart := Chain.holds_premises (Chain.sayable_statements hwords hfirsts)
    (Chain.nodup_statements hnodup.of_map hnodup)
  have hunknown : ¬ (((statements pairs (pairs.map Prod.fst)).map (Text.join " ")).foldl
      Chain.addPremise .empty).knows p.2 := by
    refine (hstart.knows_iff (Chain.sayable_statements hwords hfirsts)
      hp.2.plain_singleton).not.2 fun h => ?_
    rcases mem_statements.1 h with ⟨q, -, he⟩ | ⟨w, hw, he⟩
    · exact absurd (congrArg List.length he) (by simp [conditional])
    · exact hdisjoint _ hw _ (List.mem_map_of_mem hmem) (List.singleton_inj.1 he)
  have haxiom : axiomInstance? (Text.tokens p.2) Registry.seeded.axioms.items = none := by
    rw [show Text.tokens p.2 = [p.2] from
      Text.tokens_join fun w hw => (hp.2.plain_singleton w hw).isWord]
    exact axiomInstance?_seeded p.2
  obtain ⟨budget, hbudget⟩ : ∃ budget, c.maxDerivationRounds = budget + 1 :=
    ⟨c.maxDerivationRounds - 1, by omega⟩
  unfold validateArgument
  dsimp only
  rw [htarget, hpremises, hbudget, if_neg (by simpa using hp.2.plain.ne_nil), if_neg hunknown,
    haxiom]
  dsimp only
  exact hstart.run_modus_ponens ledByModusPonens_seeded hwords hdistinct budget

/-- **Modus ponens on many conditionals.**  From conditionals of different words and the first part
    of each of them, the second part of the conditional `i`, counted from zero, is concluded if and
    only if the conditional is among the first sixteen and there is room, within 64 statements,
    for the second parts up to this one besides the premises. -/
theorem validateArgument_modus_ponens_iff (hrounds : 1 ≤ c.maxDerivationRounds)
    (hwords : ∀ p ∈ pairs, Ordinary p.1 ∧ Ordinary p.2)
    (hdistinct : (pairs.map Prod.fst ++ pairs.map Prod.snd).Nodup) {i : Nat}
    (hi : pairs[i]? = some p) :
    (validateArgument .seeded c (conditionalTexts pairs ++ pairs.map Prod.fst) p.2).valid ↔
      i < 16 ∧ 2 * pairs.length + i < 64 := by
  have hmem := List.mem_of_getElem? hi
  have hplace : (pairs.map Prod.snd).idxOf p.2 = i := by
    have hget : (pairs.map Prod.snd)[i]? = some p.2 := by
      rw [List.getElem?_map, hi]
      rfl
    obtain ⟨hlt, he⟩ := List.getElem?_eq_some_iff.1 hget
    rw [← he]
    exact (List.nodup_append.1 hdistinct).2.1.idxOf_getElem i hlt
  have hmatches : InferenceRule.maxMatches = 16 := rfl
  have hstatements : Chain.maxStatements = 64 := rfl
  rw [valid_modus_ponens hrounds hwords hdistinct hmem, List.take_take,
    List.mem_take_iff_idxOf_lt (List.mem_map_of_mem hmem), hplace, hmatches, hstatements]
  omega

end

/-- The pairs of `a` and `aa`, of `b` and `bb`, and so on. -/
def letterPairs (n : Nat) : List (Text × Text) :=
  (List.range n).map fun k => ([97 + .ofNat k], [97 + .ofNat k, 97 + .ofNat k])

/-- With sixteen conditionals each one is used. -/
theorem validateArgument_modus_ponens_sixteen :
    let pairs := letterPairs 16
    (∀ p ∈ pairs, Ordinary p.1 ∧ Ordinary p.2) ∧
      (pairs.map Prod.fst ++ pairs.map Prod.snd).Nodup ∧
      ∀ p ∈ pairs,
        (validateArgument .seeded {} (conditionalTexts pairs ++ pairs.map Prod.fst) p.2).valid := by
  intro pairs
  have hwords : ∀ p ∈ pairs, Ordinary p.1 ∧ Ordinary p.2 := by decide +kernel
  have hdistinct : (pairs.map Prod.fst ++ pairs.map Prod.snd).Nodup := by decide
  refine ⟨hwords, hdistinct, fun p hp => ?_⟩
  obtain ⟨i, hlt, hi⟩ := List.getElem_of_mem hp
  have hlength : pairs.length = 16 := by decide
  exact (validateArgument_modus_ponens_iff (c := {}) (by decide) hwords hdistinct
    (List.getElem?_eq_some_iff.2 ⟨hlt, hi⟩)).2 (by omega)

/-- With one more the last conditional is not used, though its first part is a premise. -/
theorem validateArgument_misses_seventeenth :
    let pairs := letterPairs 17
    (∀ p ∈ pairs, Ordinary p.1 ∧ Ordinary p.2) ∧
      (pairs.map Prod.fst ++ pairs.map Prod.snd).Nodup ∧
      (Text.ofString "q", Text.ofString "qq") ∈ pairs ∧
      ¬ (validateArgument .seeded {}
        (conditionalTexts pairs ++ pairs.map Prod.fst) "qq").valid := by
  intro pairs
  have hwords : ∀ p ∈ pairs, Ordinary p.1 ∧ Ordinary p.2 := by decide +kernel
  have hdistinct : (pairs.map Prod.fst ++ pairs.map Prod.snd).Nodup := by decide
  have hmem : (Text.ofString "q", Text.ofString "qq") ∈ pairs := by decide
  refine ⟨hwords, hdistinct, hmem, ?_⟩
  exact (valid_modus_ponens (c := {}) (by decide) hwords hdistinct hmem).not.2 (by decide)

end Reasoning.Classical
