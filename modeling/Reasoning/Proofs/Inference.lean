/-
  What rules make of statements.

  * `FitsAll`: under one choice of words for the variables, patterns fit statements one by one;
  * `InferenceRule.Yields`: a rule makes a statement of others, one for each antecedent;
  * `eq_join_of_instantiate`: the statement that a template makes under some bindings;
  * `InferenceRule.select_eq`: the search for matches finds the first of all ways to apply a
    rule;
  * `InferenceRule.apply_sound`: what a rule finds it yields, from different premises;
  * `Ledger.Infers`, `Ledger.infers_push`: a line of a proof that follows by a rule from the
    lines it names, and the line that a match writes;
  * `Ledger.Derives`: a ledger that derives statements from premises by rules.
-/
import Mathlib.Data.List.Nodup
import Reasoning.Classical.Match
import Reasoning.Proofs.Ledger
import Reasoning.Proofs.Pattern

namespace Reasoning

/-! ## Statements that fit -/

/-- Every variable that is bound stands for words that it may stand for. -/
def Bindings.Proper (b : Bindings) : Prop :=
  ∀ x vs, b.get? x = some vs → vs ≠ [] ∧ Unreserved vs

/-- The patterns fit the statements under the bindings `b`, each by one of its templates.  A
    template that is nothing but a variable wants an atomic statement, unless the variable is
    among those `seen` before. -/
inductive FitsAll (b : Bindings) : List Text → List Pattern → List (List Text) → Prop
  | nil {seen : List Text} : FitsAll b seen [] []
  | cons {seen : List Text} {p : Pattern} {ps : List Pattern} {ws : List Text}
      {wss : List (List Text)} {t : Template} : t ∈ p.templates → t.Spells b ws →
      (∀ x, t = [.var x] → x ∉ seen → isAtomic ws) →
      FitsAll b (seen ++ t.vars) ps wss → FitsAll b seen (p :: ps) (ws :: wss)

/-- The rule makes `conclusion` of the statements `wss`, one for each antecedent in order, under
    one choice of words for its variables. -/
def InferenceRule.Yields (r : InferenceRule) (wss : List (List Text)) (conclusion : Text) : Prop :=
  ∃ b : Bindings, b.Proper ∧ FitsAll b [] (r.antecedents.map Pattern.ofText) wss ∧
    instantiate r.consequent b = .ok conclusion

/-! ## Statements that follow -/

/-- What a word of a template stands for: a variable for the words that are bound to it, any other
    word for itself. -/
def Bindings.wordsOf (b : Bindings) (w : Text) : List Text :=
  if isVariable w then (b.get? w).getD [] else [w]

theorem Slot.eq_wordsOf_of_fill {b : Bindings} {w : Text} {vs : List Text}
    (h : (Slot.ofToken w).fill b = .ok vs) : vs = b.wordsOf w := by
  unfold Slot.ofToken at h
  unfold Bindings.wordsOf
  split at h
  · rename_i hw
    rw [if_pos hw]
    cases hget : b.get? w <;> rw [Slot.fill, hget] at h <;> cases h
    rfl
  · rename_i hw
    rw [if_neg hw]
    cases h
    rfl

/-- What the bound words and a word of a template have, the words that it stands for have. -/
theorem Bindings.forall_wordsOf {P : Text → Prop} {b : Bindings}
    (hb : ∀ x vs, b.get? x = some vs → ∀ v ∈ vs, P v) {w : Text} (hw : P w) :
    ∀ v ∈ b.wordsOf w, P v := by
  intro v hv
  unfold wordsOf at hv
  split at hv
  · cases hget : b.get? w with
    | none => simp [hget] at hv
    | some vs => exact hb w vs hget v (by simpa [hget] using hv)
  · exact List.mem_singleton.1 hv ▸ hw

/-- A template is filled with what its words stand for. -/
theorem eq_join_of_instantiate {t c : Text} {b : Bindings} (h : instantiate t b = .ok c) :
    c = Text.join " " (t.tokens.flatMap b.wordsOf) := by
  have hfill : ∀ {ws : List Text} {vss : List (List Text)},
      (ws.map Slot.ofToken).mapM (Slot.fill b) = .ok vss → vss = ws.map b.wordsOf := by
    intro ws
    induction ws with
    | nil =>
      intro vss hvss
      cases hvss
      rfl
    | cons w ws ih =>
      intro vss hvss
      rw [List.map_cons, List.mapM_cons] at hvss
      cases hw : (Slot.ofToken w).fill b with
      | error x => rw [hw] at hvss; cases hvss
      | ok vs =>
        cases hws : (ws.map Slot.ofToken).mapM (Slot.fill b) with
        | error x => rw [hw, hws] at hvss; cases hvss
        | ok rest =>
          rw [hw, hws] at hvss
          cases hvss
          rw [Slot.eq_wordsOf_of_fill hw, ih hws, List.map_cons]
  unfold instantiate at h
  cases hvss : (Template.ofText t).mapM (Slot.fill b) with
  | error x => rw [hvss] at h; cases h
  | ok vss =>
    rw [hvss] at h
    cases h
    rw [hfill hvss, List.flatMap]

namespace InferenceRule

/-! ## All ways to apply a rule -/

/-- All ways to go on from a selection with the patterns that are left, in the order in which
    they are looked at. -/
def ways (premises : List (List Text × Nat)) : List Pattern → Bool → Selection → List Selection
  | [], _, s => [s]
  | p :: ps, bare, (b, used) =>
    premises.flatMap fun (ws, i) =>
      if mayTake (bare && p.isBare) used i then
        match p.fit ws b with
        | some b' => ways premises ps p.isBare (b', i :: used)
        | none => []
      else []

theorem take_append_of_full {α : Type} {n : Nat} {xs ys : List α} (h : xs.length ≤ n)
    (hn : n ≤ xs.length) : (xs ++ ys).take n = xs := List.take_left' (Nat.le_antisymm h hn)

/-- Cutting off a front part first makes no difference. -/
theorem take_take_append {α : Type} (n : Nat) (xs ys : List α) :
    (xs.take n ++ ys).take n = (xs ++ ys).take n := by
  rw [List.take_append, List.take_append, List.take_take, Nat.min_self, List.length_take]
  congr 2
  omega

/-- A fold that collects at most `n` elements collects the first ones. -/
theorem foldl_take {α β : Type} {f : List β → α → List β} {g : α → List β} {n : Nat}
    (hf : ∀ found a, found.length ≤ n → f found a = (found ++ g a).take n) :
    ∀ (l : List α) (found : List β), found.length ≤ n →
      l.foldl f found = (found ++ l.flatMap g).take n
  | [], found, h => by simp [List.take_of_length_le h]
  | a :: l, found, h => by
    rw [List.foldl_cons, hf found a h, foldl_take hf l _ (List.length_take_le ..),
      take_take_append, List.append_assoc, List.flatMap_cons]

/-- The search finds the first ways to go on, as many as there is room for. -/
theorem select_eq (premises : List (List Text × Nat)) :
    ∀ (ps : List Pattern) (bare : Bool) (s : Selection) (found : List Selection),
      found.length ≤ maxMatches →
        select premises ps bare s found = (found ++ ways premises ps bare s).take maxMatches
  | [], bare, s, found, h => by
    rw [select, ways]
    split
    · rename_i hn
      rw [take_append_of_full h hn]
    · rw [List.take_of_length_le]
      rw [List.length_append, List.length_singleton]
      omega
  | p :: ps, bare, (b, used), found, h => by
    rw [select, ways]
    refine foldl_take (fun found a hf => ?_) premises found h
    obtain ⟨ws, i⟩ := a
    by_cases hn : maxMatches ≤ found.length
    · simp only [if_pos hn]
      rw [take_append_of_full hf hn]
    · simp only [if_neg hn]
      split
      · cases p.fit ws b with
        | some b' => exact select_eq premises ps p.isBare (b', i :: used) found hf
        | none => simp [List.take_of_length_le hf]
      · simp [List.take_of_length_le hf]

/-- The patterns fit the premises `is` one after the other, with bindings that grow from one
    pattern to the next. -/
inductive Threaded (wss : List (List Text)) :
    List Pattern → List Nat → Bindings → Bindings → Prop
  | nil {b} : Threaded wss [] [] b b
  | cons {p ps i is ws b b₁ b₂} : wss[i]? = some ws → p.fit ws b = some b₁ →
      Threaded wss ps is b₁ b₂ → Threaded wss (p :: ps) (i :: is) b b₂

/-- Neighbouring patterns that are nothing but a variable take premises in their order. -/
def InOrder (ps : List Pattern) (is : List Nat) : Prop :=
  (ps.zip is).IsChain fun a b => a.1.isBare → b.1.isBare → a.2 < b.2

theorem inOrder_cons {p : Pattern} {ps : List Pattern} {i : Nat} {is : List Nat} :
    InOrder (p :: ps) (i :: is) ↔
      (∀ q ∈ ps.head?, ∀ j ∈ is.head?, p.isBare → q.isBare → i < j) ∧ InOrder ps is := by
  unfold InOrder
  cases ps with
  | nil => simp
  | cons q ps =>
    cases is with
    | nil => simp
    | cons j is => simp

theorem mayTake_iff {ordered : Bool} {used : List Nat} {i : Nat} :
    mayTake ordered used i ↔ i ∉ used ∧ (ordered → ∀ last ∈ used.head?, last ≤ i) := by
  unfold mayTake
  cases used.head? <;> cases ordered <;> simp

/-- The first pattern takes a premise that it may and that it fits, and the others go on. -/
theorem mem_ways_cons {wss : List (List Text)} {p : Pattern} {ps : List Pattern} {bare : Bool}
    {b : Bindings} {used : List Nat} {s : Selection} :
    s ∈ ways wss.zipIdx (p :: ps) bare (b, used) ↔
      ∃ i ws b', wss[i]? = some ws ∧ mayTake (bare && p.isBare) used i ∧ p.fit ws b = some b' ∧
        s ∈ ways wss.zipIdx ps p.isBare (b', i :: used) := by
  rw [ways, List.mem_flatMap]
  constructor
  · rintro ⟨⟨ws, i⟩, hi, h⟩
    dsimp only at h
    split at h
    · rename_i hmay
      cases hfit : p.fit ws b with
      | none =>
        rw [hfit] at h
        cases h
      | some b' =>
        rw [hfit] at h
        exact ⟨i, ws, b', List.mem_zipIdx_iff_getElem?.1 hi, hmay, hfit, h⟩
    · cases h
  · rintro ⟨i, ws, b', hi, hmay, hfit, h⟩
    refine ⟨(ws, i), List.mem_zipIdx_iff_getElem?.2 hi, ?_⟩
    dsimp only
    rwa [if_pos hmay, hfit]

/-- The ways take different premises that the patterns fit, in order where it matters. -/
theorem mem_ways_iff {wss : List (List Text)} :
    ∀ {ps : List Pattern} {bare : Bool} {b : Bindings} {used : List Nat} {s : Selection},
      s ∈ ways wss.zipIdx ps bare (b, used) ↔
        ∃ is, s.2 = is.reverse ++ used ∧ is.Nodup ∧ (∀ i ∈ is, i ∉ used) ∧
          (∀ p ∈ ps.head?, bare → p.isBare → ∀ last ∈ used.head?, ∀ i ∈ is.head?, last ≤ i) ∧
          InOrder ps is ∧ Threaded wss ps is b s.1
  | [], bare, b, used, s => by
    rw [ways, List.mem_singleton]
    constructor
    · rintro rfl
      exact ⟨[], rfl, List.nodup_nil, by simp, by simp, .nil, .nil⟩
    · rintro ⟨is, hs, -, -, -, -, ht⟩
      cases ht
      exact Prod.ext rfl hs
  | p :: ps, bare, b, used, s => by
    rw [mem_ways_cons]
    constructor
    · rintro ⟨i, ws, b', hi, hmay, hfit, h⟩
      obtain ⟨hnew, hlast⟩ := mayTake_iff.1 hmay
      obtain ⟨is, hs, hnd, hu, hfirst, ho, ht⟩ := mem_ways_iff.1 h
      refine ⟨i :: is, by simp [hs], List.nodup_cons.2 ⟨fun hmem => ?_, hnd⟩, ?_, ?_,
        inOrder_cons.2 ⟨fun q hq j hj hp hqb => ?_, ho⟩, .cons hi hfit ht⟩
      · exact hu i hmem (List.mem_cons_self ..)
      · exact List.forall_mem_cons.2
          ⟨hnew, fun j hj hju => hu j hj (List.mem_cons_of_mem _ hju)⟩
      · rintro q hq hbare hqb last hl j hj
        cases hq
        cases hj
        exact hlast (by rw [hbare, hqb]; rfl) last hl
      · -- The premise of the neighbour is not an earlier one, and not the same.
        refine Nat.lt_of_le_of_ne (hfirst q hq hp hqb i rfl j hj) ?_
        rintro rfl
        exact hu i (List.mem_of_mem_head? hj) (List.mem_cons_self ..)
    · rintro ⟨is, hs, hnd, hu, hfirst, ho, ht⟩
      cases ht with
      | @cons _ _ i is ws _ b' _ hi hfit ht =>
        obtain ⟨hmem, hnd⟩ := List.nodup_cons.1 hnd
        obtain ⟨hnext, ho⟩ := inOrder_cons.1 ho
        have hmay : mayTake (bare && p.isBare) used i :=
          mayTake_iff.2 ⟨hu i (List.mem_cons_self ..), fun hordered last hl => by
            rw [Bool.and_eq_true] at hordered
            exact hfirst p rfl hordered.1 hordered.2 last hl i rfl⟩
        refine ⟨i, ws, b', hi, hmay, hfit, mem_ways_iff.2 ⟨is, by simp [hs], hnd, fun j hj => ?_,
          fun q hq hp hqb last hl j hj => ?_, ho, ht⟩⟩
        · rw [List.mem_cons, not_or]
          exact ⟨fun he => hmem (he ▸ hj), hu j (List.mem_cons_of_mem _ hj)⟩
        · cases hl
          exact Nat.le_of_lt (hnext q hq j hj hp hqb)

/-- A pattern that is given its premise after the variables `seen` leaves bindings in which
    every statement so far fits. -/
theorem Threaded.sound {wss : List (List Text)} {ps : List Pattern} {is : List Nat}
    {b b' : Bindings} (h : Threaded wss ps is b b') :
    b'.Extends b ∧ (b.Proper → b'.Proper) ∧ (∀ i ∈ is, i < wss.length) ∧
      ∀ seen, (∀ x, (b.get? x).isSome → x ∈ seen) →
        FitsAll b' seen ps (is.filterMap (wss[·]?)) := by
  induction h with
  | nil => exact ⟨.refl _, fun hb => hb, by simp, fun _ _ => .nil⟩
  | @cons p ps i is ws b b₁ b₂ hi hf ht ih =>
    obtain ⟨he, hp, hb, hfit⟩ := ih
    obtain ⟨skipped, t, others, hts, ha, hft, -⟩ := Pattern.fit_eq_some hf
    obtain ⟨he₁, hs, hvars, hw⟩ := Template.fit_sound hft
    refine ⟨he.trans he₁, fun hb₀ => hp fun x vs hx => ?_, fun j hj => ?_, fun seen hseen => ?_⟩
    · cases hx₀ : b.get? x with
      | some us =>
        obtain rfl : us = vs := Option.some.inj ((he₁ x us hx₀).symm.trans hx)
        exact hb₀ x us hx₀
      | none =>
        obtain ⟨h₁, -, h₂⟩ := hw x vs hx₀ hx
        exact ⟨h₁, h₂⟩
    · rcases List.mem_cons.1 hj with rfl | hj
      · exact (List.getElem?_eq_some_iff.1 hi).1
      · exact hb j hj
    · rw [List.filterMap_cons_some hi]
      refine .cons (by simp [hts]) (hs.mono he) (fun x hx hxs => ?_) (hfit _ fun x hx => ?_)
      · refine Pattern.admits_iff.1 ha x hx (Option.not_isSome_iff_eq_none.1 fun hb => ?_)
        exact hxs (hseen x hb)
      · exact List.mem_append.2 ((hvars x hx).imp_left (hseen x))

/-- Variables stand for words of the premises, and have what these have. -/
theorem Threaded.forall_words {P : Text → Prop} {wss : List (List Text)} {ps : List Pattern}
    {is : List Nat} {b b' : Bindings} (h : Threaded wss ps is b b')
    (hwss : ∀ ws ∈ wss, ∀ w ∈ ws, P w) (hb : ∀ x vs, b.get? x = some vs → ∀ w ∈ vs, P w) :
    ∀ x vs, b'.get? x = some vs → ∀ w ∈ vs, P w := by
  induction h with
  | nil => exact hb
  | @cons p ps i is ws b b₁ b₂ hi hf _ ih =>
    obtain ⟨_, t, _, -, -, hft, -⟩ := Pattern.fit_eq_some hf
    obtain ⟨hkeeps, -, -, hpiece⟩ := Template.fit_sound hft
    refine ih fun x vs hx => ?_
    cases hx₀ : b.get? x with
    | some us =>
      obtain rfl : us = vs := Option.some.inj ((hkeeps x us hx₀).symm.trans hx)
      exact hb x us hx₀
    | none =>
      obtain ⟨-, hpart, -⟩ := hpiece x vs hx₀ hx
      exact fun w hw => hwss ws (List.mem_of_getElem? hi) w (hpart.subset hw)

/-! ## What a rule finds -/

theorem mem_of_mapM {ε α β : Type} {f : α → Except ε β} {l : List α} {bs : List β}
    (h : l.mapM f = .ok bs) {y : β} (hy : y ∈ bs) : ∃ a ∈ l, f a = .ok y := by
  induction l generalizing bs with
  | nil =>
    cases h
    cases hy
  | cons a l ih =>
    rw [List.mapM_cons] at h
    cases ha : f a with
    | error e => rw [ha] at h; cases h
    | ok y₁ =>
      cases hl : l.mapM f with
      | error e => rw [ha, hl] at h; cases h
      | ok ys =>
        rw [ha, hl] at h
        cases h
        rcases List.mem_cons.1 hy with rfl | hy
        · exact ⟨a, List.mem_cons_self .., ha⟩
        · obtain ⟨c, hc, hcy⟩ := ih hl hy
          exact ⟨c, List.mem_cons_of_mem _ hc, hcy⟩

theorem mem_of_mem_distinctConclusions {ms : List RuleMatch} {m : RuleMatch}
    (h : m ∈ distinctConclusions ms) : m ∈ ms := by
  revert h
  unfold distinctConclusions
  refine List.foldlRecOn ms _ (motive := fun kept => m ∈ kept → m ∈ ms) (by simp) ?_
  intro kept ih k hk h
  split at h
  · exact ih h
  · rcases List.mem_append.1 h with h | h
    · exact ih h
    · rw [List.mem_singleton.1 h]
      exact hk

/-- What a rule finds comes from a selection of premises. -/
theorem exists_of_mem_apply {r : InferenceRule} {wss : List (List Text)} {ms : List RuleMatch}
    (h : r.apply wss = .ok ms) {m : RuleMatch} (hm : m ∈ ms) :
    ∃ s ∈ ways wss.zipIdx (r.antecedents.map Pattern.ofText) false ([], []),
      r.matchOf s = .ok m := by
  unfold apply patterns at h
  dsimp only at h
  split at h
  · cases h
  · simp only [bind, Except.bind] at h
    split at h
    · cases h
      cases hm
    · split at h
      · cases h
      · rename_i _ found hfound
        cases h
        obtain ⟨s, hs, hsm⟩ := mem_of_mapM hfound (mem_of_mem_distinctConclusions hm)
        -- The limit on matches only cuts off the end of all ways.
        rw [select_eq _ _ _ _ _ (Nat.zero_le _), List.nil_append] at hs
        exact ⟨s, List.mem_of_mem_take hs, hsm⟩

/-- A rule takes different premises, and yields what it finds of them. -/
theorem apply_sound {r : InferenceRule} {wss : List (List Text)} {ms : List RuleMatch}
    (h : r.apply wss = .ok ms) {m : RuleMatch} (hm : m ∈ ms) :
    m.premises.Nodup ∧ (∀ i ∈ m.premises, i < wss.length) ∧
      r.Yields (m.premises.filterMap (wss[·]?)) m.conclusion := by
  obtain ⟨s, hs, hsm⟩ := exists_of_mem_apply h hm
  obtain ⟨is, his, hnd, -, -, -, ht⟩ := mem_ways_iff.1 hs
  obtain ⟨-, hp, hlt, hfit⟩ := ht.sound
  unfold matchOf at hsm
  split at hsm
  · rename_i c hc
    cases hsm
    have hpr : s.2.reverse = is := by simp [his]
    refine ⟨by rwa [hpr], by rwa [hpr], s.1, hp fun x vs hx => by simp at hx, ?_, hc⟩
    rw [hpr]
    exact hfit [] fun x hx => by simp at hx
  · cases hsm

end InferenceRule

/-! ## Lines that follow by a rule -/

/-- The line `s` follows by the rule from the lines `used` before it, which it names in the order
    of the antecedents they fit. -/
structure Ledger.Infers (l : Ledger) (r : InferenceRule) (used : List Step) (s : Step) : Prop where
  named : s.justification = r.name
  refs : s.refs = used.map (·.seq)
  distinct : s.refs.Nodup
  earlier : ∀ u ∈ used, l.at? u.seq = .ok u ∧ u.seq < s.seq
  yields : r.Yields (used.map fun u => u.content.tokens) s.content

/-- The line `s` follows by one of the rules from lines of some kinds. -/
def Ledger.Inferred (l : Ledger) (rules : List InferenceRule) (P : Step.Kind → Prop) (s : Step) :
    Prop :=
  ∃ r ∈ rules, ∃ used, l.Infers r used s ∧ ∀ u ∈ used, P u.kind

/-- The numbers of elements that are numbered from one. -/
theorem map_filterMap_numbered {α : Type} {xs : List α} {seq : α → Nat}
    (h : ∀ i a, xs[i]? = some a → seq a = i + 1) {is : List Nat} (hi : ∀ i ∈ is, i < xs.length) :
    (is.filterMap (xs[·]?)).map seq = is.map (· + 1) := by
  induction is with
  | nil => rfl
  | cons i is ih =>
    have hget := List.getElem?_eq_getElem (hi i (List.mem_cons_self ..))
    rw [List.filterMap_cons_some hget, List.map_cons, List.map_cons, h i _ hget,
      ih fun j hj => hi j (List.mem_cons_of_mem _ hj)]

namespace Ledger

variable {l : Ledger} {r : InferenceRule} {wss : List (List Text)} {ms : List RuleMatch}
  {m : RuleMatch}

/-- A line that follows goes on to follow when lines are added. -/
theorem Infers.push {used : List Step} {s : Step} (h : l.Infers r used s) (kind : Step.Kind)
    (content why : Text) (x : Single) (refs : List Nat) :
    (l.push kind content why x refs).Infers r used s where
  named := h.named
  refs := h.refs
  distinct := h.distinct
  earlier u hu := ⟨at?_push (h.earlier u hu).1, (h.earlier u hu).2⟩
  yields := h.yields

theorem Inferred.push {rules : List InferenceRule} {P : Step.Kind → Prop} {s : Step}
    (h : l.Inferred rules P s) (kind : Step.Kind) (content why : Text) (x : Single)
    (refs : List Nat) : (l.push kind content why x refs).Inferred rules P s := by
  obtain ⟨r, hr, used, hu, hused⟩ := h
  exact ⟨r, hr, used, hu.push .., hused⟩

/-- A match on the statements that a proof begins with adds a line that follows. -/
theorem infers_push (hl : l.WellFormed) (hw : wss <+: l.steps.map fun s => s.content.tokens)
    (h : r.apply wss = .ok ms) (hm : m ∈ ms) (x : Single) :
    (l.push .inference m.conclusion r.name x (m.premises.map (· + 1))).WellFormed ∧
    (l.push .inference m.conclusion r.name x (m.premises.map (· + 1))).Infers r
      (m.premises.filterMap (l.steps[·]?))
      ⟨l.nextSeq, .inference, m.conclusion, r.name, Score.clamp x, m.premises.map (· + 1)⟩ := by
  obtain ⟨hnd, hlt, hy⟩ := InferenceRule.apply_sound h hm
  have hlt' : ∀ i ∈ m.premises, i < l.steps.length := fun i hi =>
    Nat.lt_of_lt_of_le (hlt i hi) (by simpa using hw.length_le)
  have htokens : (m.premises.filterMap (l.steps[·]?)).map (fun u => u.content.tokens) =
      m.premises.filterMap (wss[·]?) := by
    rw [List.map_filterMap]
    refine List.filterMap_congr fun i hi => ?_
    obtain ⟨rest, hrest⟩ := hw
    rw [← List.getElem?_append_left (hlt i hi), hrest, List.getElem?_map]
  refine ⟨hl.push ?_, rfl, ?_, ?_, ?_, ?_⟩
  · intro n hn
    obtain ⟨i, hi, rfl⟩ := List.mem_map.1 hn
    exact ⟨Nat.succ_pos i, Nat.succ_lt_succ (hlt' i hi)⟩
  · exact (map_filterMap_numbered hl.numbered hlt').symm
  · exact hnd.map fun i j hij => Nat.succ.inj hij
  · intro u hu
    obtain ⟨i, hi, hiu⟩ := List.mem_filterMap.1 hu
    have hmem := List.mem_of_getElem? hiu
    exact ⟨at?_push (hl.at?_seq hmem), (hl.seq_bounds hmem).2⟩
  · rw [htokens]
    exact hy

/-! ## Derivations -/

/-- The ledger derives statements from premises by rules: it has a line for each of them, which
    follows from the premises and the statements before. -/
structure Derives (l : Ledger) (rules : List InferenceRule) (premises statements : List Text) :
    Prop where
  wellFormed : l.WellFormed
  given : ∀ s ∈ l.steps, s.kind = .premise → s.content ∈ premises
  inferred : ∀ s ∈ l.steps, s.kind = .inference → l.Inferred rules (· ≠ .conclusion) s
  derived : (l.steps.filter (·.kind = .inference)).map (·.content) = statements

theorem derives_empty (rules : List InferenceRule) (premises : List Text) :
    Ledger.empty.Derives rules premises [] where
  wellFormed := wellFormed_empty
  given s h := by simp [empty] at h
  inferred s h := by simp [empty] at h
  derived := rfl

section
variable {rules : List InferenceRule} {premises statements : List Text} {content why : Text}
  {x : Single} {refs : List Nat}

theorem Derives.push_premise (h : l.Derives rules premises statements) :
    (l.push .premise content why x []).Derives rules (premises ++ [content]) statements where
  wellFormed := h.wellFormed.push (by simp)
  given s hs hp := by
    rcases mem_steps_push.1 hs with hs | rfl
    · exact List.mem_append_left _ (h.given s hs hp)
    · exact List.mem_append_right _ (List.mem_singleton_self _)
  inferred s hs hi := by
    rcases mem_steps_push.1 hs with hs | rfl
    · exact (h.inferred s hs hi).push ..
    · cases hi
  derived := by
    rw [steps_push, List.filter_append, List.map_append, h.derived]
    exact List.append_nil _

theorem Derives.push_inference (h : l.Derives rules premises statements)
    (hwf : (l.push .inference content why x refs).WellFormed) (hr : r ∈ rules) {used : List Step}
    (hinf : (l.push .inference content why x refs).Infers r used
      ⟨l.nextSeq, .inference, content, why, Score.clamp x, refs⟩)
    (hused : ∀ u ∈ used, u.kind ≠ .conclusion) :
    (l.push .inference content why x refs).Derives rules premises (statements ++ [content]) where
  wellFormed := hwf
  given s hs hp := by
    rcases mem_steps_push.1 hs with hs | rfl
    · exact h.given s hs hp
    · cases hp
  inferred s hs hi := by
    rcases mem_steps_push.1 hs with hs | rfl
    · exact (h.inferred s hs hi).push ..
    · exact ⟨r, hr, used, hinf, hused⟩
  derived := by
    rw [steps_push, List.filter_append, List.map_append, h.derived]
    rfl

theorem Derives.push_conclusion (h : l.Derives rules premises statements)
    (hrefs : ∀ n ∈ refs, 0 < n ∧ n < l.nextSeq) :
    (l.push .conclusion content why x refs).Derives rules premises statements where
  wellFormed := h.wellFormed.push hrefs
  given s hs hp := by
    rcases mem_steps_push.1 hs with hs | rfl
    · exact h.given s hs hp
    · cases hp
  inferred s hs hi := by
    rcases mem_steps_push.1 hs with hs | rfl
    · exact (h.inferred s hs hi).push ..
    · cases hi
  derived := by
    rw [steps_push, List.filter_append, List.map_append, h.derived]
    exact List.append_nil _

/-- A derivation from some premises is one from more. -/
theorem Derives.mono {premises' : List Text} (h : l.Derives rules premises statements)
    (hsub : premises ⊆ premises') : l.Derives rules premises' statements where
  wellFormed := h.wellFormed
  given s hs hp := hsub (h.given s hs hp)
  inferred := h.inferred
  derived := h.derived

end

end Ledger

end Reasoning
