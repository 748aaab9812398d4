/-
  The matches of a rule, in their order.

  A rule goes through all ways to fit different premises to its antecedents, in lexicographic
  order of the premises, looks at the first ones, and lists those whose conclusion is new.

  * `Pattern.isEmpty_ofText`: patterns without words;
  * `InferenceRule.Enumerates`: a list of all ways to fit premises, in their order, of which
    there is one only;
  * `InferenceRule.firsts`: the matches whose conclusion no earlier match has;
  * `InferenceRule.apply_enumerates`: what a rule finds is read off that list.
-/
import Reasoning.Proofs.Completeness

namespace Reasoning

/-! ## Patterns without words -/

namespace Text

theorem runs_eq_nil_iff {p : UInt8 → Bool} {t : Text} : runs p t = [] ↔ ∀ b ∈ t, p b = false := by
  refine ⟨fun h => ?_, runs_eq_nil⟩
  induction t with
  | nil => exact fun b hb => nomatch hb
  | cons c t ih =>
    cases hc : p c with
    | true => exact absurd h (runs_ne_nil hc t)
    | false =>
      rw [runs_cons_break hc] at h
      exact List.forall_mem_cons.2 ⟨hc, ih h⟩

/-- Splitting loses the separators and nothing else. -/
theorem flatten_splitWhere (sep : UInt8 → Bool) (t : Text) :
    (splitWhere sep t).flatten = t.filter fun b => !sep b := by
  induction t with
  | nil => rfl
  | cons b t ih =>
    rw [splitWhere, List.filter_cons, ← ih]
    cases hb : sep b with
    | true => simp
    | false => cases splitWhere sep t <;> simp

end Text

/-- A pattern is empty if and only if its text has no words. -/
theorem Pattern.isEmpty_ofText (t : Text) : (Pattern.ofText t).isEmpty ↔ t.tokens = [] := by
  have hbar : Byte.isWord '|'.toUInt8 = false := by decide
  have hpieces : (Pattern.ofText t).isEmpty ↔
      ∀ piece ∈ t.splitWhere (· == '|'.toUInt8), ∀ b ∈ piece, Byte.isWord b = false := by
    simp only [Pattern.isEmpty, Pattern.ofText, List.isEmpty_iff, List.filter_eq_nil_iff,
      List.forall_mem_map, Template.ofText, Bool.not_eq_true', Bool.not_eq_false,
      List.map_eq_nil_iff, ← Text.runs_eq_nil_iff, Text.tokens]
  rw [hpieces, Text.tokens, Text.runs_eq_nil_iff]
  -- The separator of templates is no word byte.
  constructor
  · intro h b hb
    by_cases hsep : b = '|'.toUInt8
    · rw [hsep, hbar]
    · have hmem : b ∈ (t.splitWhere (· == '|'.toUInt8)).flatten := by
        rw [Text.flatten_splitWhere]
        exact List.mem_filter.2 ⟨hb, by simpa using hsep⟩
      obtain ⟨piece, hpiece, hb⟩ := List.mem_flatten.1 hmem
      exact h piece hpiece b hb
  · intro h piece hpiece b hb
    have hmem := List.mem_flatten.2 ⟨piece, hpiece, hb⟩
    rw [Text.flatten_splitWhere] at hmem
    exact h b (List.mem_filter.1 hmem).1

namespace InferenceRule

variable {r : InferenceRule} {ps : List Pattern} {wss : List (List Text)}

/-! ## All ways in their order -/

/-- The list has all ways to fit different premises to the patterns one after the other, in
    lexicographic order of the premises. -/
structure Enumerates (found : List (List Nat × Bindings)) (ps : List Pattern)
    (wss : List (List Text)) : Prop where
  ordered : found.Pairwise fun s u => s.1 < u.1
  mem_iff : ∀ is b, (is, b) ∈ found ↔ is.Nodup ∧ InOrder ps is ∧ Threaded wss ps is [] b

/-- There is one such list only. -/
theorem Enumerates.unique {found found' : List (List Nat × Bindings)}
    (h : Enumerates found ps wss) (h' : Enumerates found' ps wss) : found = found' := by
  refine List.Perm.eq_of_pairwise (fun s u _ _ hsu hus => ?_) h.ordered h'.ordered ?_
  · exact absurd hsu (lt_asymm hus)
  · have hnodup : ∀ {l : List (List Nat × Bindings)}, l.Pairwise (fun s u => s.1 < u.1) →
        l.Nodup := fun hl => List.nodup_iff_pairwise_ne.2
      (hl.imp fun hlt => ne_of_apply_ne Prod.fst (ne_of_lt hlt))
    rw [List.perm_ext_iff_of_nodup (hnodup h.ordered) (hnodup h'.ordered)]
    rintro ⟨is, b⟩
    rw [h.mem_iff, h'.mem_iff]

/-- A way that goes on from a selection begins with the premises of the selection. -/
theorem reverse_of_mem_ways {bare : Bool} {b : Bindings} {used : List Nat} {s : Selection}
    (h : s ∈ ways wss.zipIdx ps bare (b, used)) : ∃ is, s.2.reverse = used.reverse ++ is := by
  obtain ⟨is, hs, -⟩ := mem_ways_iff.1 h
  exact ⟨is, by rw [hs, List.reverse_append, List.reverse_reverse]⟩

theorem pairwise_zipIdx {α : Type} (l : List α) : l.zipIdx.Pairwise fun e f => e.2 < f.2 := by
  rw [← List.pairwise_map (f := Prod.snd), List.zipIdx_map_snd]
  exact List.pairwise_lt_range'

theorem ways_sorted (wss : List (List Text)) (ps : List Pattern) (bare : Bool) (s : Selection) :
    (ways wss.zipIdx ps bare s).Pairwise fun u v => u.2.reverse < v.2.reverse := by
  induction ps generalizing bare s with
  | nil => exact List.pairwise_singleton ..
  | cons p ps ih =>
    obtain ⟨b, used⟩ := s
    -- All ways that take the premise `i` next begin alike.
    have hnext : ∀ {i b' s}, s ∈ ways wss.zipIdx ps p.isBare (b', i :: used) →
        ∃ is, s.2.reverse = used.reverse ++ i :: is := by
      intro i b' s hs
      obtain ⟨is, his⟩ := reverse_of_mem_ways hs
      exact ⟨is, by rw [his, List.reverse_cons, List.append_assoc, List.singleton_append]⟩
    rw [ways, List.pairwise_flatMap]
    constructor
    · rintro ⟨ws, i⟩ -
      dsimp only
      split
      · split
        · exact ih ..
        · exact List.Pairwise.nil
      · exact List.Pairwise.nil
    · refine (pairwise_zipIdx wss).imp ?_
      rintro ⟨ws, i⟩ ⟨ws', j⟩ hlt u hu v hv
      dsimp only at hlt hu hv
      obtain ⟨is, his⟩ : ∃ is, u.2.reverse = used.reverse ++ i :: is := by
        split at hu
        · split at hu
          · exact hnext hu
          · cases hu
        · cases hu
      obtain ⟨js, hjs⟩ : ∃ js, v.2.reverse = used.reverse ++ j :: js := by
        split at hv
        · split at hv
          · exact hnext hv
          · cases hv
        · cases hv
      rw [his, hjs]
      exact List.Lex.append_left _ (.rel hlt) _

/-- The ways to apply patterns from the start, with the premises in the order they are taken. -/
def taken (ps : List Pattern) (wss : List (List Text)) : List (List Nat × Bindings) :=
  (ways wss.zipIdx ps false ([], [])).map fun s => (s.2.reverse, s.1)

theorem enumerates_taken (ps : List Pattern) (wss : List (List Text)) :
    Enumerates (taken ps wss) ps wss where
  ordered := List.pairwise_map.2 (ways_sorted wss ps false ([], []))
  mem_iff is b := by
    unfold taken
    rw [List.mem_map]
    constructor
    · rintro ⟨s, hs, he⟩
      obtain ⟨is', his, hnodup, -, -, horder, ht⟩ := mem_ways_iff.1 hs
      obtain ⟨rfl, rfl⟩ := Prod.mk.inj he
      rw [his, List.append_nil, List.reverse_reverse]
      exact ⟨hnodup, horder, ht⟩
    · rintro ⟨hnodup, horder, ht⟩
      refine ⟨(b, is.reverse), mem_ways_iff.2 ⟨is, ?_, hnodup, ?_, ?_, horder, ht⟩, ?_⟩
      · rw [List.append_nil]
      · exact fun i _ => List.not_mem_nil
      · simp
      · rw [List.reverse_reverse]

/-! ## First conclusions -/

/-- The matches whose conclusion no earlier match has. -/
def firsts (ms : List RuleMatch) : List RuleMatch :=
  (ms.zipIdx.filter fun (m, j) =>
    !(ms.take j).any fun k => k.conclusion.canonical == m.conclusion.canonical).map (·.1)

theorem firsts_concat (ms : List RuleMatch) (m : RuleMatch) :
    firsts (ms ++ [m]) = firsts ms ++
      if ms.any fun k => k.conclusion.canonical == m.conclusion.canonical then [] else [m] := by
  unfold firsts
  rw [List.zipIdx_append, List.filter_append, List.map_append]
  congr 1
  · refine congrArg _ (List.filter_congr fun e he => ?_)
    have hlt : e.2 < ms.length := by
      simpa using (List.getElem?_eq_some_iff.1 (List.mem_zipIdx_iff_getElem?.1 he)).1
    dsimp only
    rw [List.take_append_of_le_length hlt.le]
  · rw [List.zipIdx_singleton, Nat.zero_add, List.filter_singleton]
    dsimp only
    rw [List.take_left' rfl]
    cases ms.any fun k => k.conclusion.canonical == m.conclusion.canonical <;> rfl

/-- The matches that are kept have the conclusions of all matches. -/
theorem any_distinctConclusions (ms : List RuleMatch) (c : Text) :
    ((distinctConclusions ms).any fun k => k.conclusion.canonical == c) =
      ms.any fun k => k.conclusion.canonical == c := by
  induction ms using List.reverseRecOn with
  | nil => rfl
  | append_singleton ms m ih =>
    rw [List.any_append, ← ih]
    unfold distinctConclusions
    rw [List.foldl_concat]
    split
    · rename_i h
      cases hc : m.conclusion.canonical == c with
      | false => simp [hc]
      | true =>
        rw [eq_of_beq hc] at h
        rw [h]
        rfl
    · rw [List.any_append]

theorem distinctConclusions_eq_firsts (ms : List RuleMatch) :
    distinctConclusions ms = firsts ms := by
  induction ms using List.reverseRecOn with
  | nil => rfl
  | append_singleton ms m ih =>
    have hany := any_distinctConclusions ms m.conclusion.canonical
    unfold distinctConclusions at hany ih ⊢
    rw [List.foldl_concat, firsts_concat, hany, ← ih]
    split
    · rw [List.append_nil]
    · rfl

theorem firsts_eq_self {ms : List RuleMatch}
    (h : (ms.map (·.conclusion.canonical)).Nodup) : firsts ms = ms := by
  induction ms using List.reverseRecOn with
  | nil => rfl
  | append_singleton ms m ih =>
    rw [List.map_append, List.map_singleton, List.nodup_append] at h
    obtain ⟨hms, -, hm⟩ := h
    rw [firsts_concat, ih hms, if_neg]
    intro hany
    obtain ⟨k, hk, he⟩ := List.any_eq_true.1 hany
    exact hm _ (List.mem_map_of_mem hk) _ (List.mem_singleton_self _) (eq_of_beq he)

/-! ## What a rule finds -/

/-- The match takes these premises under these bindings, and concludes what follows. -/
structure Matches (r : InferenceRule) (s : List Nat × Bindings) (m : RuleMatch) : Prop where
  premises : m.premises = s.1
  bindings : m.bindings = s.2
  conclusion : instantiate r.consequent s.2 = .ok m.conclusion

theorem matchOf_eq_ok_iff {s : Selection} {m : RuleMatch} :
    r.matchOf s = .ok m ↔ r.Matches (s.2.reverse, s.1) m := by
  unfold matchOf
  cases h : instantiate r.consequent s.1 with
  | error x => exact ⟨fun he => (by cases he), fun hm => by cases h.symm.trans hm.conclusion⟩
  | ok c =>
    constructor
    · intro he
      cases he
      exact ⟨rfl, rfl, h⟩
    · rintro ⟨hp, hb, hc⟩
      obtain rfl : c = m.conclusion := Except.ok.inj (h.symm.trans hc)
      dsimp only at hp hb
      rw [← hp, ← hb]

theorem matchOf_eq_error_iff {s : Selection} {e : Fault} :
    r.matchOf s = .error e ↔ ∃ x, instantiate r.consequent s.1 = .error x ∧ e = .unbound x := by
  unfold matchOf
  cases instantiate r.consequent s.1 <;> simp [eq_comm]

/-- A rule that concludes something else of each of the ways that it looks at lists them all. -/
theorem apply_conclusions {found : List (List Nat × Bindings)} {cs : List Text}
    (hwords : ∀ a ∈ r.antecedents, (Pattern.ofText a).isEmpty = false)
    (hfound : Enumerates found (r.antecedents.map Pattern.ofText) wss)
    (hcs : (found.take maxMatches).map (fun s => instantiate r.consequent s.2) = cs.map .ok)
    (hdistinct : (cs.map Text.canonical).Nodup) :
    ∃ ms, r.apply wss = .ok ms ∧ ms.map (·.conclusion) = cs := by
  obtain rfl := hfound.unique (enumerates_taken _ wss)
  rw [taken, ← List.map_take, List.map_map] at hcs
  obtain ⟨ms, hms, hall⟩ := exists_mapM (f := r.matchOf)
    (l := (ways wss.zipIdx (r.antecedents.map Pattern.ofText) false ([], [])).take maxMatches)
    fun s hs => by
      have hmem := List.mem_map_of_mem
        (f := (fun s => instantiate r.consequent s.2) ∘ fun s => (s.2.reverse, s.1)) hs
      rw [hcs, List.mem_map] at hmem
      obtain ⟨c, -, hc⟩ := hmem
      exact ⟨⟨s.1, s.2.reverse, c⟩, matchOf_eq_ok_iff.2 ⟨rfl, rfl, hc.symm⟩⟩
  have hconclusions : ms.map (·.conclusion) = cs := by
    have heq := List.forall₂_map_left_iff.2 (List.forall₂_map_right_iff.2
      (hall.imp fun s m h => (matchOf_eq_ok_iff.1 h).conclusion))
    rw [List.forall₂_eq_eq_eq] at heq
    have hinj : Function.Injective (Except.ok : Text → Except Text Text) := fun _ _ => Except.ok.inj
    refine List.map_injective_iff.2 hinj ?_
    rw [← hcs, List.map_map]
    exact heq.symm
  refine ⟨ms, ?_, hconclusions⟩
  rw [← hconclusions, List.map_map] at hdistinct
  rw [apply_eq hwords, hms]
  exact congrArg Except.ok
    ((distinctConclusions_eq_firsts ms).trans (firsts_eq_self hdistinct))

theorem mapM_eq_error {ε α β : Type} {f : α → Except ε β} {before after : List α} {a : α} {e : ε}
    (hbefore : ∀ c ∈ before, ∃ y, f c = .ok y) (ha : f a = .error e) :
    (before ++ a :: after).mapM f = .error e := by
  induction before with
  | nil =>
    rw [List.nil_append, List.mapM_cons, ha]
    rfl
  | cons c before ih =>
    obtain ⟨⟨y, hy⟩, hbefore⟩ := List.forall_mem_cons.1 hbefore
    rw [List.cons_append, List.mapM_cons, hy, ih hbefore]
    rfl

/-- A pattern fits what one of its templates is under the bindings. -/
theorem fit_isSome_of_spells {p : Pattern} {t : Template} {ws : List Text} {b : Bindings}
    (hb : b.Filled) (ht : t ∈ p.templates) (h : t.Spells b ws) : (p.fit ws b).isSome := by
  refine (Pattern.fit_isSome_iff hb).2 ⟨t, ht, b, .refl b, h, ?_, ?_⟩
  · exact fun x vs hx hx' => by cases hx.symm.trans hx'
  · -- A variable that the template consists of is bound, or it would spell nothing.
    rintro x rfl hx
    have := h.isSome_get? (x := x) (List.mem_singleton_self x)
    rw [hx] at this
    cases this

/-- Under the bindings at the end every pattern goes on to fit its premise. -/
theorem Threaded.fit_isSome {is : List Nat} {b c : Bindings} (h : Threaded wss ps is b c)
    (hc : c.Filled) :
    List.Forall₂ (fun p i => ∃ ws, wss[i]? = some ws ∧ (Pattern.fit p ws c).isSome) ps is := by
  induction h with
  | nil => exact .nil
  | @cons p ps i is ws b b₁ b₂ hi hf ht ih =>
    obtain ⟨skipped, t, others, hts, -, hft, -⟩ := Pattern.fit_eq_some hf
    have hspells : t.Spells b₂ ws := (Template.fit_sound hft).spells.mono ht.sound.1
    exact .cons ⟨ws, hi, fit_isSome_of_spells hc (by simp [hts]) hspells⟩ (ih hc)

/-- **What a rule finds.**  A rule with an antecedent without words is in fault.  Any other rule
    goes through all ways to fit different premises to its antecedents in lexicographic order of
    the premises, and looks at the first sixteen of them: it is in fault for the first that leaves
    a variable of the consequent without words, and if there is none it lists one match for each
    of them whose conclusion no earlier one has.  Under the bindings of a match every antecedent
    fits the premise that it takes. -/
theorem apply_enumerates (r : InferenceRule) (wss : List (List Text)) :
    ((∃ a ∈ r.antecedents, a.tokens = []) → r.apply wss = .error (.emptyAntecedent r.id)) ∧
    ((∀ a ∈ r.antecedents, a.tokens ≠ []) →
      ∃ found, (∀ l, Enumerates l (r.antecedents.map Pattern.ofText) wss ↔ l = found) ∧
        (∀ before s after x, found.take 16 = before ++ s :: after →
          (∀ u ∈ before, ∃ c, instantiate r.consequent u.2 = .ok c) →
          instantiate r.consequent s.2 = .error x → r.apply wss = .error (.unbound x)) ∧
        ((∀ s ∈ found.take 16, ∃ c, instantiate r.consequent s.2 = .ok c) →
          ∃ ms, List.Forall₂ r.Matches (found.take 16) ms ∧ r.apply wss = .ok (firsts ms))) ∧
    ∀ ms, r.apply wss = .ok ms → ∀ m ∈ ms,
      List.Forall₂ (fun a i => ∃ ws, wss[i]? = some ws ∧
        ((Pattern.ofText a).fit ws m.bindings).isSome) r.antecedents m.premises := by
  have hblank : ∀ a : Text, (Pattern.ofText a).isEmpty = false ↔ a.tokens ≠ [] := fun a => by
    rw [← Bool.not_eq_true, Pattern.isEmpty_ofText]
  refine ⟨fun ⟨a, ha, hempty⟩ => ?_, fun hwords => ?_, fun ms hms m hm => ?_⟩
  · have hany : (r.antecedents.map Pattern.ofText).any Pattern.isEmpty :=
      List.any_eq_true.2 ⟨_, List.mem_map_of_mem ha, (Pattern.isEmpty_ofText a).2 hempty⟩
    unfold apply patterns
    dsimp only
    rw [if_pos hany]
    rfl
  · have happly := apply_eq (fun a ha => (hblank a).2 (hwords a ha)) wss
    have henumerates := enumerates_taken (r.antecedents.map Pattern.ofText) wss
    refine ⟨_, fun l => ⟨fun h => h.unique henumerates, fun h => h ▸ henumerates⟩, ?_⟩
    have htake : ∀ n, (taken (r.antecedents.map Pattern.ofText) wss).take n =
        ((ways wss.zipIdx (r.antecedents.map Pattern.ofText) false ([], [])).take n).map
          fun s => (s.2.reverse, s.1) := fun n => List.map_take.symm
    rw [htake, show (16 : Nat) = maxMatches from rfl, happly]
    generalize (ways wss.zipIdx (r.antecedents.map Pattern.ofText) false ([], [])).take maxMatches =
      ways
    refine ⟨fun before s after x hsplit hbefore hs => ?_, fun hall => ?_⟩
    · obtain ⟨before', rest, rfl, rfl, hrest⟩ := List.map_eq_append_iff.1 hsplit
      obtain ⟨s', after', rfl, rfl, rfl⟩ := List.map_eq_cons_iff.1 hrest
      have hfault : r.matchOf s' = .error (.unbound x) := matchOf_eq_error_iff.2 ⟨x, hs, rfl⟩
      rw [mapM_eq_error (fun u hu => ?_) hfault]
      · rfl
      · obtain ⟨c, hc⟩ := hbefore _ (List.mem_map_of_mem hu)
        exact ⟨⟨u.1, u.2.reverse, c⟩, matchOf_eq_ok_iff.2 ⟨rfl, rfl, hc⟩⟩
    · obtain ⟨ms, hms, hmatches⟩ := exists_mapM (f := r.matchOf) (l := ways) fun s hs => by
        obtain ⟨c, hc⟩ := hall _ (List.mem_map_of_mem hs)
        exact ⟨⟨s.1, s.2.reverse, c⟩, matchOf_eq_ok_iff.2 ⟨rfl, rfl, hc⟩⟩
      refine ⟨ms, List.forall₂_map_left_iff.2 ?_, ?_⟩
      · exact hmatches.imp fun s m h => matchOf_eq_ok_iff.1 h
      · rw [hms, ← distinctConclusions_eq_firsts]
        rfl
  · obtain ⟨s, hs, hsm⟩ := exists_of_mem_apply hms hm
    obtain ⟨is, his, -, -, -, -, ht⟩ := mem_ways_iff.1 hs
    obtain ⟨hpremises, hbindings, -⟩ := matchOf_eq_ok_iff.1 hsm
    rw [hpremises, hbindings, his, List.append_nil, List.reverse_reverse]
    have hproper : Bindings.Proper s.1 := ht.sound.2.1 fun x vs hx => by simp at hx
    exact List.forall₂_map_left_iff.1 (ht.fit_isSome hproper.filled)

/-- Of three ways to join two of three statements the last concludes nothing new. -/
theorem apply_enumerates_conjunction :
    let r : InferenceRule := ⟨"conjunction", "Conjunction", .deduction,
      Text.ofStrings ["P", "Q"], "P and Q", 0.8, []⟩
    let wss := [Text.tokens "it rains", Text.tokens "It rains", Text.tokens "it snows"]
    (∀ a ∈ r.antecedents, a.tokens ≠ []) ∧
      ∃ found, Enumerates found (r.antecedents.map Pattern.ofText) wss ∧
        (∀ s ∈ found.take 16, ∃ c, instantiate r.consequent s.2 = .ok c) ∧
        found.map (·.1) = [[0, 1], [0, 2], [1, 2]] ∧
        ∃ ms, List.Forall₂ r.Matches (found.take 16) ms ∧ r.apply wss = .ok (firsts ms) ∧
          (firsts ms).map (·.premises) = [[0, 1], [0, 2]] := by
  intro r wss
  have hwords : ∀ a ∈ r.antecedents, a.tokens ≠ [] := by decide
  obtain ⟨found, hfound, -, hmatches⟩ := (apply_enumerates r wss).2.1 hwords
  obtain rfl := (hfound _).1 (enumerates_taken _ wss)
  have hconcluded : ∀ s ∈ (taken (r.antecedents.map Pattern.ofText) wss).take 16,
      ∃ c, instantiate r.consequent s.2 = .ok c := by
    have hok : ∀ s ∈ (taken (r.antecedents.map Pattern.ofText) wss).take 16,
        (instantiate r.consequent s.2).toOption.isSome := by decide
    intro s hs
    have := hok s hs
    cases h : instantiate r.consequent s.2 with
    | ok c => exact ⟨c, rfl⟩
    | error x =>
      rw [h] at this
      cases this
  obtain ⟨ms, hms, happly⟩ := hmatches hconcluded
  refine ⟨hwords, _, enumerates_taken _ wss, hconcluded, by decide, ms, hms, happly, ?_⟩
  have hpremises : (r.apply wss).toOption.map (List.map (·.premises)) =
      some [[0, 1], [0, 2]] := by decide
  rw [happly] at hpremises
  exact Option.some.inj hpremises

end InferenceRule

end Reasoning
