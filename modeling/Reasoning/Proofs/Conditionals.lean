/-
  Conditionals as premises.

  Among conditionals and statements of a single word a rule finds something only by its
  antecedents that are conditionals themselves or nothing but a variable.  Modus ponens takes
  every conditional together with its first part, and no other way.

  * `Ordinary`: words that have no part in the structure of a statement;
  * `Template.isInert`: templates that suit neither a single word nor a conditional;
  * `InferenceRule.Idle`: rules that find nothing among such statements;
  * `InferenceRule.enumerates_modus_ponens`, `InferenceRule.apply_modus_ponens`: the matches of
    modus ponens, and what it concludes.
-/
import Reasoning.Proofs.Budget
import Reasoning.Proofs.Enumeration
import Reasoning.Proofs.Words

namespace Reasoning

/-- A plain word that a variable may stand for and that makes a statement of its own. -/
structure Ordinary (w : Text) : Prop where
  plain : w.Plain
  unreserved : isReserved w = false
  unmarked : w ∉ Text.ofStrings ["contradiction", "paradox"]

instance (w : Text) : Decidable (Ordinary w) :=
  decidable_of_iff (w.Plain ∧ isReserved w = false ∧
      w ∉ Text.ofStrings ["contradiction", "paradox"])
    ⟨fun ⟨h₁, h₂, h₃⟩ => ⟨h₁, h₂, h₃⟩, fun ⟨h₁, h₂, h₃⟩ => ⟨h₁, h₂, h₃⟩⟩

/-- The words of a conditional. -/
def conditional (p : Text × Text) : List Text := ["if", p.1, "then", p.2]

/-- Conditionals, and statements of a single word. -/
def statements (pairs : List (Text × Text)) (singles : List Text) : List (List Text) :=
  pairs.map conditional ++ singles.map ([·])

variable {pairs : List (Text × Text)} {singles ws : List Text} {p : Text × Text} {w x y : Text}
  {i : Nat} {b c : Bindings}

theorem Ordinary.lower (h : Ordinary w) : Text.lower w = w := h.plain.small

theorem Ordinary.plain_singleton (h : Ordinary w) : ∀ v ∈ [w], v.Plain := fun v hv => by
  rw [List.mem_singleton.1 hv]
  exact h.plain

theorem Ordinary.canonical (h : Ordinary w) : w.canonical = w :=
  Text.canonical_join h.plain_singleton

theorem plain_conditional (h : Ordinary p.1 ∧ Ordinary p.2) : ∀ v ∈ conditional p, v.Plain := by
  unfold conditional
  simp only [List.forall_mem_cons]
  exact ⟨by decide +kernel, h.1.plain, by decide +kernel, h.2.plain, fun v hv => nomatch hv⟩

theorem mem_statements :
    ws ∈ statements pairs singles ↔
      (∃ p ∈ pairs, conditional p = ws) ∨ ∃ w ∈ singles, [w] = ws := by
  unfold statements
  rw [List.mem_append, List.mem_map, List.mem_map]

/-! ## Which templates suit them -/

namespace Template

/-- The template has two parts or more, and does not begin with `if`. -/
def isInert : Template → Bool
  | .word w :: _ :: _ => Text.lower w != Text.ofString "if"
  | .var _ :: _ :: _ => true
  | _ => false

variable {t : Template}

theorem Spells.length_le (h : t.Spells b ws) (hb : b.Filled) : t.length ≤ ws.length := by
  induction t generalizing ws with
  | nil => exact Nat.zero_le _
  | cons s t ih =>
    cases s with
    | word w =>
      obtain ⟨v, rest, rfl, -, ht⟩ := spells_word.1 h
      exact Nat.succ_le_succ (ih ht)
    | var x =>
      obtain ⟨vs, hx, hsame, ht⟩ := spells_var.1 h
      have hpos := List.length_pos_iff.2 (hb x vs hx)
      have htake := Text.sameWords_length hsame
      have hdrop := ih ht
      rw [List.length_take] at htake
      rw [List.length_drop] at hdrop
      rw [List.length_cons]
      omega

/-- No variable stands for words that begin with `if`. -/
theorem not_spells_of_isInert (h : t.isInert) (hb : b.Proper)
    (hws : ws ∈ statements pairs singles) : ¬ t.Spells b ws := by
  intro hspells
  have hlength := hspells.length_le hb.filled
  match t, h with
  | .word v :: s :: t, h =>
    rcases mem_statements.1 hws with ⟨p, -, rfl⟩ | ⟨w, -, rfl⟩
    · obtain ⟨u, rest, hu, hv, -⟩ := spells_word.1 hspells
      obtain ⟨rfl, -⟩ := List.cons.inj hu
      have hif : Text.lower (Text.ofString "if") = Text.ofString "if" := by decide
      exact absurd (hv.trans hif) (by simpa [isInert] using h)
    · simp at hlength
  | .var x :: s :: t, h =>
    rcases mem_statements.1 hws with ⟨p, -, rfl⟩ | ⟨w, -, rfl⟩
    · obtain ⟨vs, hx, hsame, -⟩ := spells_var.1 hspells
      obtain ⟨hne, hunreserved⟩ := hb x vs hx
      obtain ⟨u, vs, rfl⟩ := List.exists_cons_of_ne_nil hne
      have hu : Text.lower (Text.ofString "if") = Text.lower u := by
        rw [Text.sameWords_iff] at hsame
        exact (List.cons.inj hsame).1
      have hif := hunreserved u (List.mem_cons_self ..)
      rw [← hu] at hif
      exact absurd hif (by decide)
    · simp at hlength

end Template

/-! ## Rules that find nothing -/

namespace InferenceRule

variable {r : InferenceRule} {ps : List Pattern} {wss : List (List Text)}

theorem apply_eq_nil (hwords : ∀ a ∈ r.antecedents, (Pattern.ofText a).isEmpty = false)
    (h : ∀ is b, ¬ Threaded wss (r.antecedents.map Pattern.ofText) is [] b) :
    r.apply wss = .ok [] := by
  have hnil : ways wss.zipIdx (r.antecedents.map Pattern.ofText) false ([], []) = [] :=
    List.eq_nil_iff_forall_not_mem.2 fun s hs => by
      obtain ⟨is, -, -, -, -, -, ht⟩ := mem_ways_iff.1 hs
      exact h is s.1 ht
  rw [apply_eq hwords, hnil]
  rfl

/-- A pattern that is fitted to a premise spells it with what is bound in the end. -/
theorem Threaded.exists_spells {is : List Nat} (h : Threaded wss ps is b c) {q : Pattern}
    (hq : q ∈ ps) : ∃ ws ∈ wss, ∃ t ∈ q.templates, t.Spells c ws := by
  induction h with
  | nil => cases hq
  | @cons p ps i is ws b b₁ b₂ hi hf ht ih =>
    rcases List.mem_cons.1 hq with rfl | hq
    · obtain ⟨skipped, t, others, hts, -, hft, -⟩ := Pattern.fit_eq_some hf
      exact ⟨ws, List.mem_of_getElem? hi, t, by simp [hts],
        (Template.fit_sound hft).spells.mono ht.sound.1⟩
    · exact ih hq

theorem Threaded.proper {is : List Nat} (h : Threaded wss ps is [] b) : b.Proper :=
  h.sound.2.1 fun x vs hx => by simp at hx

/-- No antecedent is without words, and one has nothing but inert templates. -/
def Idle (r : InferenceRule) : Prop :=
  (∀ a ∈ r.antecedents, (Pattern.ofText a).isEmpty = false) ∧
    ∃ a ∈ r.antecedents, ∀ t ∈ (Pattern.ofText a).templates, t.isInert

instance (r : InferenceRule) : Decidable r.Idle :=
  inferInstanceAs (Decidable (_ ∧ _))

theorem Idle.apply_eq_nil (h : r.Idle) : r.apply (statements pairs singles) = .ok [] := by
  obtain ⟨hwords, a, ha, hinert⟩ := h
  refine InferenceRule.apply_eq_nil hwords fun is b ht => ?_
  obtain ⟨ws, hws, t, hmem, hspells⟩ := ht.exists_spells (List.mem_map_of_mem ha)
  exact Template.not_spells_of_isInert (hinert t hmem) ht.proper hws hspells

end InferenceRule

/-! ## Conditionals as premises -/

namespace Pattern

/-- The conditional as a template. -/
def ifThen (x y : Text) : Template := [.word "if", .var x, .word "then", .var y]

/-- What the variables of a conditional stand for. -/
def affirmed (p : Text × Text) : Bindings := [("P", [p.1]), ("Q", [p.2])]

/-- Of a pattern that begins with a conditional the other templates are inert. -/
def Conditional (q : Pattern) (x y : Text) : Prop :=
  q.templates = ifThen x y :: q.templates.tail ∧ ∀ t ∈ q.templates.tail, t.isInert

instance (q : Pattern) (x y : Text) : Decidable (q.Conditional x y) :=
  inferInstanceAs (Decidable (_ ∧ _))

variable {q : Pattern}

theorem Conditional.isBare_eq_false (hq : q.Conditional x y) : q.isBare = false := by
  obtain ⟨hothers, -⟩ := hq
  unfold isBare
  rw [hothers]
  cases q.templates.tail <;> rfl

theorem fit_conditional (hq : q.Conditional "P" "Q") (hp : Ordinary p.1 ∧ Ordinary p.2) :
    q.fit (conditional p) [] = some (affirmed p) := by
  obtain ⟨hothers, -⟩ := hq
  have hfit : (ifThen "P" "Q").fit (conditional p) [] = some (affirmed p) := by
    have h₁ := hp.1.unreserved
    have h₂ := hp.2.unreserved
    rw [← hp.1.lower] at h₁
    rw [← hp.2.lower] at h₂
    simp [ifThen, conditional, Template.fit, Template.capture, h₁, h₂]
    rfl
  rw [fit, hothers, List.findSome?_cons, if_pos (by rfl), hfit]

/-- Only conditionals are spelled by such a pattern. -/
theorem Conditional.exists_of_spells (hq : q.Conditional x y) (hb : b.Proper)
    (hws : ws ∈ statements pairs singles) {t : Template} (ht : t ∈ q.templates)
    (h : t.Spells b ws) : t = ifThen x y ∧ ∃ p ∈ pairs, conditional p = ws := by
  obtain ⟨hothers, hinert⟩ := hq
  rw [hothers] at ht
  rcases List.mem_cons.1 ht with rfl | ht
  · rcases mem_statements.1 hws with hp | ⟨w, -, rfl⟩
    · exact ⟨rfl, hp⟩
    · exact absurd (h.length_le hb.filled) (by simp [ifThen])
  · exact absurd h (Template.not_spells_of_isInert (hinert t ht) hb hws)

/-- What is bound by a conditional. -/
theorem Conditional.eq_affirmed (hq : q.Conditional "P" "Q")
    (hpairs : ∀ p ∈ pairs, Ordinary p.1 ∧ Ordinary p.2) (hws : ws ∈ statements pairs singles)
    (h : q.fit ws [] = some b) : ∃ p ∈ pairs, conditional p = ws ∧ b = affirmed p := by
  -- The statement on its own is a list of premises with one place.
  have ht : InferenceRule.Threaded [ws] [q] [0] [] b := .cons rfl h .nil
  obtain ⟨us, hus, t, ht', hspells⟩ := ht.exists_spells (List.mem_singleton_self q)
  rw [List.mem_singleton.1 hus] at hspells
  obtain ⟨-, p, hp, rfl⟩ := hq.exists_of_spells ht.proper hws ht' hspells
  rw [fit_conditional hq (hpairs p hp)] at h
  exact ⟨p, hp, rfl, (Option.some.inj h).symm⟩

/-- The first part of a conditional is affirmed by a statement that consists of it. -/
theorem fit_affirmed (ws : List Text) (p : Text × Text) :
    fit ⟨[[.var "P"]]⟩ ws (affirmed p) =
      if Text.sameWords ws [p.1] then some (affirmed p) else none := by
  have hbound : Dict.get? (affirmed p) "P" = some [p.1] := by
    rw [affirmed, Dict.get?_cons, if_pos rfl]
  have hadmits : admits [.var "P"] ws (affirmed p) :=
    admits_iff.2 fun x hx hnone => by
      obtain rfl : Text.ofString "P" = x := by simpa using hx
      rw [hbound] at hnone
      cases hnone
  have hfit : fit ⟨[[.var "P"]]⟩ ws (affirmed p) =
      Template.fit [.var "P"] ws (affirmed p) := by
    rw [fit, List.findSome?_cons, if_pos hadmits]
    cases Template.fit [.var "P"] ws (affirmed p) <;> rfl
  rw [hfit]
  cases ws with
  | nil => rfl
  | cons w ws =>
    rw [Template.fit_bound hbound (List.cons_ne_nil _ _)]
    cases ws with
    | nil => rfl
    | cons v ws =>
      have hlong : ¬ Text.sameWords (w :: v :: ws) [p.1] := fun h => by
        simpa using Text.sameWords_length h
      rw [if_neg hlong]
      split <;> rfl

end Pattern

/-! ## Places of the statements -/

theorem conditional_injective : Function.Injective conditional := by
  rintro ⟨a, b⟩ ⟨c, d⟩ h
  simpa [conditional] using h

theorem getElem?_statements_eq_conditional :
    (statements pairs singles)[i]? = some (conditional p) ↔ pairs[i]? = some p := by
  unfold statements
  rw [List.getElem?_append]
  split
  · rw [List.getElem?_map, Option.map_eq_some_iff]
    constructor
    · rintro ⟨q, hq, he⟩
      rw [hq, conditional_injective he]
    · exact fun h => ⟨p, h, rfl⟩
  · rename_i h
    rw [List.length_map] at h
    rw [List.getElem?_map, List.getElem?_eq_none (Nat.not_lt.1 h)]
    simp [conditional]

theorem getElem?_statements_eq_single :
    (statements pairs singles)[i]? = some [w] ↔
      ∃ k, i = pairs.length + k ∧ singles[k]? = some w := by
  unfold statements
  rw [List.getElem?_append]
  split
  · rename_i h
    rw [List.length_map] at h
    rw [List.getElem?_map, Option.map_eq_some_iff]
    constructor
    · rintro ⟨q, -, he⟩
      cases he
    · rintro ⟨k, rfl, -⟩
      omega
  · rename_i h
    rw [List.length_map] at h ⊢
    rw [List.getElem?_map, Option.map_eq_some_iff]
    constructor
    · rintro ⟨v, hv, he⟩
      obtain rfl := List.singleton_inj.1 he
      exact ⟨_, by omega, hv⟩
    · rintro ⟨k, rfl, hk⟩
      exact ⟨w, by rwa [Nat.add_sub_cancel_left], rfl⟩

/-! ## Modus ponens -/

namespace InferenceRule

variable {r : InferenceRule} {q q' : Pattern} {extra : List Text}

/-- Conditionals are chained only where the second part of one is the first part of another. -/
theorem not_threaded_syllogism (hq : q.Conditional "P" "Q") (hq' : q'.Conditional "Q" "R")
    (hpairs : ∀ p ∈ pairs, Ordinary p.1 ∧ Ordinary p.2)
    (hchain : ∀ p ∈ pairs, ∀ u ∈ pairs, p.2 ≠ u.1) (is : List Nat) :
    ¬ Threaded (statements pairs singles) [q, q'] is [] b := by
  intro ht
  have hproper := ht.proper
  obtain ⟨ws', hws', t, hmem, hspells⟩ := ht.exists_spells (q := q') (by simp)
  obtain ⟨rfl, u, hu, rfl⟩ := hq'.exists_of_spells hproper hws' hmem hspells
  cases ht with
  | cons hi hf ht =>
    obtain ⟨p, hp, -, rfl⟩ := hq.eq_affirmed hpairs (List.mem_of_getElem? hi) hf
    have hbound : b.get? "Q" = some [p.2] := ht.sound.1 _ _ rfl
    obtain ⟨_, _, hcons, -, hspells⟩ := Template.spells_word.1 hspells
    obtain ⟨-, rfl⟩ := List.cons.inj hcons
    obtain ⟨vs, hvs, hsame, -⟩ := Template.spells_var.1 hspells
    obtain rfl : [p.2] = vs := Option.some.inj (hbound.symm.trans hvs)
    have hlower : Text.lower u.1 = Text.lower p.2 := by
      simpa [Text.sameWords_iff] using hsame
    rw [(hpairs u hu).1.lower, (hpairs p hp).2.lower] at hlower
    exact hchain p hp u hu hlower.symm

/-- The first part of a conditional stands at the same place among the first parts. -/
theorem getElem?_firsts (hi : pairs[i]? = some p) :
    (pairs.map Prod.fst ++ extra)[i]? = some p.1 := by
  have hlt := (List.getElem?_eq_some_iff.1 hi).1
  rw [List.getElem?_append_left (by rwa [List.length_map]), List.getElem?_map, hi]
  rfl

/-- A conditional goes with its first part. -/
theorem threaded_modus_ponens (hq : q.Conditional "P" "Q")
    (hpairs : ∀ p ∈ pairs, Ordinary p.1 ∧ Ordinary p.2) (hi : pairs[i]? = some p) :
    Threaded (statements pairs (pairs.map Prod.fst ++ extra)) [q, ⟨[[.var "P"]]⟩]
      [i, pairs.length + i] [] (Pattern.affirmed p) := by
  refine .cons (getElem?_statements_eq_conditional.2 hi)
    (Pattern.fit_conditional hq (hpairs p (List.mem_of_getElem? hi)))
    (.cons (getElem?_statements_eq_single.2 ⟨i, rfl, getElem?_firsts hi⟩) ?_ .nil)
  rw [Pattern.fit_affirmed, if_pos (Text.sameWords_refl _)]

/-- A conditional goes with its first part only, which stands in one place. -/
theorem exists_of_threaded_modus_ponens (hq : q.Conditional "P" "Q")
    (hpairs : ∀ p ∈ pairs, Ordinary p.1 ∧ Ordinary p.2) (hextra : ∀ w ∈ extra, Ordinary w)
    (hdistinct : (pairs.map Prod.fst ++ extra).Nodup) {is : List Nat}
    (ht : Threaded (statements pairs (pairs.map Prod.fst ++ extra)) [q, ⟨[[.var "P"]]⟩] is [] b) :
    ∃ p i, pairs[i]? = some p ∧ [i, pairs.length + i] = is ∧ Pattern.affirmed p = b := by
  cases ht with
  | @cons _ _ i is ws _ b₁ _ hi hf ht =>
    cases ht with
    | @cons _ _ j is ws' _ b₂ _ hj hf' ht =>
      cases ht
      obtain ⟨p, hp, rfl, rfl⟩ := hq.eq_affirmed hpairs (List.mem_of_getElem? hi) hf
      rw [getElem?_statements_eq_conditional] at hi
      rw [Pattern.fit_affirmed] at hf'
      split at hf'
      · rename_i hsame
        cases hf'
        obtain ⟨w, rfl⟩ := List.length_eq_one_iff.1 (Text.sameWords_length hsame)
        obtain ⟨k, rfl, hk⟩ := getElem?_statements_eq_single.1 hj
        have hsingles : ∀ w ∈ pairs.map Prod.fst ++ extra, Ordinary w :=
          List.forall_mem_append.2 ⟨List.forall_mem_map.2 fun u hu => (hpairs u hu).1, hextra⟩
        have hlower : Text.lower w = Text.lower p.1 := by
          simpa [Text.sameWords_iff] using hsame
        rw [(hsingles w (List.mem_of_getElem? hk)).lower, (hpairs p hp).1.lower] at hlower
        obtain rfl : k = i :=
          (List.getElem?_inj (List.getElem?_eq_some_iff.1 hk).1 hdistinct).1
            (by rw [hk, getElem?_firsts hi, hlower])
        exact ⟨p, k, hi, rfl, rfl⟩
      · cases hf'

/-- **The matches of modus ponens.**  Every conditional goes with its first part, and with no
    other statement. -/
theorem enumerates_modus_ponens (hq : q.Conditional "P" "Q")
    (hpairs : ∀ p ∈ pairs, Ordinary p.1 ∧ Ordinary p.2) (hextra : ∀ w ∈ extra, Ordinary w)
    (hdistinct : (pairs.map Prod.fst ++ extra).Nodup) :
    Enumerates (pairs.zipIdx.map fun (p, i) => ([i, pairs.length + i], Pattern.affirmed p))
      [q, ⟨[[.var "P"]]⟩] (statements pairs (pairs.map Prod.fst ++ extra)) where
  ordered := List.pairwise_map.2 ((pairwise_zipIdx pairs).imp fun hlt => .rel hlt)
  mem_iff is b := by
    rw [List.mem_map]
    constructor
    · rintro ⟨⟨p, i⟩, hmem, he⟩
      rw [List.mem_zipIdx_iff_getElem?] at hmem
      obtain ⟨rfl, rfl⟩ := Prod.mk.inj he
      have hlt := (List.getElem?_eq_some_iff.1 hmem).1
      refine ⟨?_, ?_, threaded_modus_ponens hq hpairs hmem⟩
      · refine List.nodup_cons.2 ⟨fun h => ?_, List.nodup_singleton _⟩
        have := List.mem_singleton.1 h
        omega
      · exact inOrder_cons.2 ⟨fun _ _ _ _ h => absurd h (by simp [hq.isBare_eq_false]),
          inOrder_cons.2 ⟨fun _ h => (nomatch h), .nil⟩⟩
    · rintro ⟨-, -, ht⟩
      obtain ⟨p, i, hi, rfl, rfl⟩ := exists_of_threaded_modus_ponens hq hpairs hextra hdistinct ht
      exact ⟨(p, i), List.mem_zipIdx_iff_getElem?.2 hi, rfl⟩

/-- Modus ponens concludes the second parts of the first conditionals. -/
theorem apply_modus_ponens
    (hr : r.antecedents = Text.ofStrings ["if P then Q|P implies Q|when P then Q", "P"])
    (hr' : r.consequent = "Q") (hpairs : ∀ p ∈ pairs, Ordinary p.1 ∧ Ordinary p.2)
    (hextra : ∀ w ∈ extra, Ordinary w) (hdistinct : (pairs.map Prod.fst ++ extra).Nodup)
    (hconclusions : (pairs.map Prod.snd).Nodup) :
    ∃ ms, r.apply (statements pairs (pairs.map Prod.fst ++ extra)) = .ok ms ∧
      ms.map (·.conclusion) = (pairs.map Prod.snd).take maxMatches := by
  have hq : (Pattern.ofText "if P then Q|P implies Q|when P then Q").Conditional "P" "Q" := by
    decide
  have hps : r.antecedents.map Pattern.ofText =
      [.ofText "if P then Q|P implies Q|when P then Q", ⟨[[.var "P"]]⟩] := by
    rw [hr]
    decide
  refine apply_conclusions (by rw [hr]; decide)
    (hps ▸ enumerates_modus_ponens hq hpairs hextra hdistinct) ?_ ?_
  · rw [List.map_take, List.map_map, List.map_take, List.map_map]
    congr 1
    conv => rhs; rw [← List.zipIdx_map_fst 0 pairs]
    rw [List.map_map]
    refine List.map_congr_left fun e _ => ?_
    dsimp only [Function.comp]
    rw [hr']
    rfl
  · have hcanonical : ((pairs.map Prod.snd).take maxMatches).map Text.canonical =
        (pairs.map Prod.snd).take maxMatches := by
      refine (List.map_congr_left fun w hw => ?_).trans (List.map_id _)
      obtain ⟨p, hp, rfl⟩ := List.mem_map.1 (List.mem_of_mem_take hw)
      exact (hpairs p hp).2.canonical
    rw [hcanonical]
    exact hconclusions.sublist (List.take_sublist ..)

end InferenceRule

end Reasoning
