/-
  The language of patterns.

  A template says which statements it stands for without any search: filled with what its
  variables stand for it has to give the words of the statement.

  * `Template.Spells`: the template, filled under some bindings, is the statement;
  * `Template.Reads`: bindings that a fit may end with, from those it starts with;
  * `Template.Found`, `Template.fit_sound`: what a fit finds, one lemma for each kind of slot;
  * `Template.fit_least`: fitting finds such bindings whenever there are any, and the shortest
    words for the variables in their order;
  * `Pattern.fit_language`: a pattern fits exactly the statements that one of its templates
    reads, and the first such template is the one that counts.
-/
import Mathlib.Data.List.Infix
import Reasoning.Pattern
import Reasoning.Proofs.Dict
import Reasoning.Proofs.Text

namespace Reasoning

/-! ## Bindings -/

namespace Bindings

/-- What is bound in `b` is bound to the same words in `b'`. -/
def Extends (b' b : Bindings) : Prop := ∀ x ws, b.get? x = some ws → b'.get? x = some ws

/-- Every variable that is bound stands for at least one word. -/
def Filled (b : Bindings) : Prop := ∀ x ws, b.get? x = some ws → ws ≠ []

theorem Extends.refl (b : Bindings) : b.Extends b := fun _ _ h => h

theorem Extends.trans {a b c : Bindings} (h₁ : c.Extends b) (h₂ : b.Extends a) : c.Extends a :=
  fun x ws h => h₁ x ws (h₂ x ws h)

theorem extends_insert {b : Bindings} {x : Text} (hx : b.get? x = none) (ws : List Text) :
    Bindings.Extends (b.insert x ws) b := by
  intro y vs hy
  rw [Dict.get?_insert, if_neg]
  · exact hy
  · rintro rfl
    rw [hx] at hy
    cases hy

theorem Filled.insert {b : Bindings} (hb : b.Filled) (x : Text) {ws : List Text} (hws : ws ≠ []) :
    Bindings.Filled (b.insert x ws) := by
  intro y vs hy
  rw [Dict.get?_insert] at hy
  split at hy
  · cases hy
    exact hws
  · exact hb y vs hy

end Bindings

/-! ## Filled templates -/

/-- Words that a variable may stand for: none of them carries the structure of a statement. -/
def Unreserved (ws : List Text) : Prop := ∀ w ∈ ws, isReserved (Text.lower w) = false

instance (ws : List Text) : Decidable (Unreserved ws) :=
  inferInstanceAs (Decidable (∀ w ∈ ws, isReserved (Text.lower w) = false))

/-- Whether words may stand for a variable does not depend on their case. -/
theorem Unreserved.sameWords {vs ws : List Text} (h : Unreserved ws) (hs : Text.sameWords vs ws) :
    Unreserved vs := by
  intro v hv
  have hm : Text.lower v ∈ ws.map Text.lower := by
    rw [← Text.sameWords_iff.1 hs]
    exact List.mem_map_of_mem hv
  obtain ⟨w, hw, he⟩ := List.mem_map.1 hm
  rw [← he]
  exact h w hw

namespace Template

/-- The words that a template stands for under some bindings. -/
def fill (t : Template) (b : Bindings) : Except Text (List Text) :=
  (t.mapM (Slot.fill b)).map List.flatten

/-- The template, filled under `b`, is the statement `ws`, whatever the case. -/
def Spells (t : Template) (b : Bindings) (ws : List Text) : Prop :=
  ∃ vs, t.fill b = .ok vs ∧ Text.sameWords vs ws

/-- The variables of a template, in order. -/
def vars (t : Template) : List Text :=
  t.filterMap fun
    | .var x => some x
    | .word _ => none

/-- The variables that a template adds to some bindings, each at its first place. -/
def newVars (t : Template) (b : Bindings) : List Text :=
  Text.distinct (t.vars.filter fun x => !b.contains x)

/-- Equal, or smaller at the first place where they differ. -/
def LexLE (as bs : List Nat) : Prop := as = bs ∨ List.Lex (· < ·) as bs

theorem LexLE.cons {a : Nat} {as bs : List Nat} (h : LexLE as bs) : LexLE (a :: as) (a :: bs) :=
  h.imp (congrArg (a :: ·)) .cons

/-- How many words each variable that the template adds to `b` stands for under `b'`. -/
def captured (t : Template) (b b' : Bindings) : List Nat :=
  (t.newVars b).map fun x => ((b'.get? x).getD []).length

/-- The template is the statement `ws` under bindings `b'` that add to `b` only what variables
    may stand for. -/
structure Suits (t : Template) (ws : List Text) (b b' : Bindings) : Prop where
  keeps : b'.Extends b
  spells : t.Spells b' ws
  words : ∀ x vs, b.get? x = none → b'.get? x = some vs → vs ≠ [] ∧ Unreserved vs

/-- The template, tried under `b`, may read the statement `ws` with the bindings `b'`. -/
structure Reads (t : Template) (ws : List Text) (b b' : Bindings) : Prop where
  keeps : b'.Extends b
  spells : t.Spells b' ws
  /-- A new variable stands for a piece of the statement. -/
  piece : ∀ x vs, b.get? x = none → b'.get? x = some vs → vs ≠ [] ∧ vs <:+: ws ∧ Unreserved vs
  /-- A new variable on its own wants an atomic statement. -/
  atomic : ∀ x, t = [.var x] → b.get? x = none → isAtomic ws

theorem fill_nil (b : Bindings) : fill [] b = .ok [] := rfl

theorem fill_cons (s : Slot) (t : Template) (b : Bindings) :
    fill (s :: t) b = do
      let vs ← s.fill b
      let ws ← fill t b
      return vs ++ ws := by
  unfold fill
  rw [List.mapM_cons]
  cases s.fill b with
  | error e => rfl
  | ok vs => cases t.mapM (Slot.fill b) <;> rfl

theorem spells_nil {b : Bindings} {ws : List Text} : Spells [] b ws ↔ ws = [] := by
  simp [Spells, fill_nil]

theorem spells_cons {s : Slot} {t : Template} {b : Bindings} {ws : List Text} :
    Spells (s :: t) b ws ↔ ∃ vs, s.fill b = .ok vs ∧
      Text.sameWords (ws.take vs.length) vs ∧ Spells t b (ws.drop vs.length) := by
  unfold Spells
  rw [fill_cons]
  constructor
  · rintro ⟨us, hus, hs⟩
    cases hv : s.fill b with
    | error e => rw [hv] at hus; cases hus
    | ok vs =>
      cases hw : fill t b with
      | error e => rw [hv, hw] at hus; cases hus
      | ok rest =>
        rw [hv, hw] at hus
        cases hus
        obtain ⟨h₁, h₂⟩ := Text.sameWords_append_iff.1 hs
        exact ⟨vs, rfl, h₁, rest, rfl, h₂⟩
  · rintro ⟨vs, hv, h₁, rest, hw, h₂⟩
    exact ⟨vs ++ rest, by rw [hv, hw]; rfl, Text.sameWords_append_iff.2 ⟨h₁, h₂⟩⟩

theorem spells_word {w : Text} {t : Template} {b : Bindings} {ws : List Text} :
    Spells (.word w :: t) b ws ↔
      ∃ v rest, ws = v :: rest ∧ Text.lower w = Text.lower v ∧ Spells t b rest := by
  rw [spells_cons]
  constructor
  · rintro ⟨vs, hv, h₁, h₂⟩
    cases hv
    cases ws with
    | nil => simp at h₁
    | cons v rest =>
      exact ⟨v, rest, rfl, by simpa [Text.sameWords] using (beq_iff_eq.1 h₁).symm, h₂⟩
  · rintro ⟨v, rest, rfl, h₁, h₂⟩
    exact ⟨[w], rfl, by simp [Text.sameWords_iff, h₁], by simpa using h₂⟩

theorem spells_var {x : Text} {t : Template} {b : Bindings} {ws : List Text} :
    Spells (.var x :: t) b ws ↔ ∃ vs, b.get? x = some vs ∧
      Text.sameWords (ws.take vs.length) vs ∧ Spells t b (ws.drop vs.length) := by
  rw [spells_cons]
  refine exists_congr fun vs => and_congr_left fun _ => ?_
  simp only [Slot.fill]
  cases Dict.get? b x <;> simp

/-- Words that agree with those they replace spell the same statement. -/
theorem Spells.congr {t : Template} {b b' : Bindings} {ws : List Text}
    (h : ∀ x vs, b.get? x = some vs → ∃ vs', b'.get? x = some vs' ∧ Text.sameWords vs' vs)
    (hs : t.Spells b ws) : t.Spells b' ws := by
  induction t generalizing ws with
  | nil => exact spells_nil.2 (spells_nil.1 hs)
  | cons s t ih =>
    cases s with
    | word w =>
      obtain ⟨v, rest, rfl, hv, hr⟩ := spells_word.1 hs
      exact spells_word.2 ⟨v, rest, rfl, hv, ih hr⟩
    | var x =>
      obtain ⟨vs, hx, hv, hr⟩ := spells_var.1 hs
      obtain ⟨vs', hx', hs'⟩ := h x vs hx
      rw [← Text.sameWords_length hs'] at hv hr
      exact spells_var.2 ⟨vs', hx', Text.sameWords_trans hv (Text.sameWords_symm hs'), ih hr⟩

theorem Spells.mono {t : Template} {b b' : Bindings} {ws : List Text} (he : b'.Extends b)
    (hs : t.Spells b ws) : t.Spells b' ws :=
  hs.congr fun x vs hx => ⟨vs, he x vs hx, Text.sameWords_refl vs⟩

theorem Spells.isSome_get? {t : Template} {b : Bindings} {ws : List Text} (hs : t.Spells b ws)
    {x : Text} (hx : x ∈ t.vars) : (b.get? x).isSome := by
  induction t generalizing ws with
  | nil => cases hx
  | cons s t ih =>
    cases s with
    | word w =>
      obtain ⟨_, _, -, -, hr⟩ := spells_word.1 hs
      exact ih hr hx
    | var y =>
      obtain ⟨vs, hy, -, hr⟩ := spells_var.1 hs
      rcases List.mem_cons.1 hx with rfl | hx
      · simp [hy]
      · exact ih hr hx

/-! ## New variables -/

theorem vars_var (x : Text) (t : Template) : vars (.var x :: t) = x :: vars t := rfl

theorem mem_newVars {t : Template} {b : Bindings} {x : Text} (hx : x ∈ t.newVars b) :
    b.get? x = none := by
  have := (List.mem_filter.1 (Text.mem_distinct.1 hx)).2
  simpa [Dict.contains] using this

theorem newVars_bound {x : Text} {t : Template} {b : Bindings} (hx : (b.get? x).isSome) :
    newVars (.var x :: t) b = newVars t b := by
  rw [newVars, vars_var, List.filter_cons_of_neg (by simp [Dict.contains, hx]), newVars]

theorem newVars_unbound {x : Text} {t : Template} {b : Bindings} (hx : b.get? x = none)
    (vs : List Text) : newVars (.var x :: t) b = x :: newVars t (b.insert x vs) := by
  have hc : (fun y => !Dict.contains (b.insert x vs) y) =
      fun y => y != x && !Dict.contains b y := by
    funext y
    by_cases h : y = x <;> simp [Dict.contains, Dict.get?_insert, h]
  rw [newVars, vars_var, List.filter_cons_of_pos (by simp [Dict.contains, hx]), Text.distinct,
    newVars, hc, Text.distinct_filter, List.filter_filter]

/-- How many words the variables take depends on the words of the new variables alone. -/
theorem captured_congr {t : Template} {b b₁ b₂ : Bindings}
    (h : ∀ x, b.get? x = none → b₁.get? x = b₂.get? x) : t.captured b b₁ = t.captured b b₂ := by
  unfold captured
  refine List.map_congr_left fun x hx => ?_
  rw [h x (mem_newVars hx)]

theorem captured_bound {x : Text} {t : Template} {b : Bindings} (b' : Bindings)
    (hx : (b.get? x).isSome) : captured (.var x :: t) b b' = captured t b b' := by
  rw [captured, newVars_bound hx, captured]

theorem captured_unbound {x : Text} {t : Template} {b b' : Bindings} {vs : List Text}
    (hx : b.get? x = none) (hx' : b'.get? x = some vs) (us : List Text) :
    captured (.var x :: t) b b' = vs.length :: captured t (b.insert x us) b' := by
  rw [captured, newVars_unbound hx us, List.map_cons, hx', captured]
  rfl

/-! ## Capturing -/

section
variable {β : Type} {k : List Text → List Text → Option β} {ws : List Text} {r : β}

/-- A variable takes words that it may stand for, and the search goes on with them. -/
theorem capture_sound {taken : List Text} (h : capture k taken ws = some r) :
    ∃ n, 0 < n ∧ n ≤ ws.length ∧ Unreserved (ws.take n) ∧
      k (taken ++ ws.take n) (ws.drop n) = some r := by
  induction ws generalizing taken with
  | nil => cases h
  | cons w ws ih =>
    rw [capture] at h
    split at h
    · cases h
    · rename_i hw
      have hw' : isReserved (Text.lower w) = false := by simpa using hw
      cases hk : k (taken ++ [w]) ws with
      | some r' =>
        rw [hk] at h
        refine ⟨1, by omega, by simp, fun v hv => ?_, by simpa [hk] using h⟩
        rwa [show v = w by simpa using hv]
      | none =>
        rw [hk] at h
        obtain ⟨n, h0, hn, hu, hr⟩ := ih (by simpa using h)
        refine ⟨n + 1, by omega, by simpa using hn, fun v hv => ?_, by simpa using hr⟩
        rcases List.mem_cons.1 (by simpa using hv) with rfl | hv
        · exact hw'
        · exact hu v hv

/-- A variable finds words if some lead on, and never more than those. -/
theorem capture_least (taken : List Text) {n : Nat} (h0 : 0 < n) (hn : n ≤ ws.length)
    (hu : Unreserved (ws.take n)) (hr : k (taken ++ ws.take n) (ws.drop n) = some r) :
    ∃ m r', 0 < m ∧ m ≤ n ∧ capture k taken ws = some r' ∧
      k (taken ++ ws.take m) (ws.drop m) = some r' := by
  induction ws generalizing taken n with
  | nil => simp at hn; omega
  | cons w ws ih =>
    obtain ⟨n, rfl⟩ : ∃ m, n = m + 1 := ⟨n - 1, by omega⟩
    have hw : isReserved (Text.lower w) = false := hu w (by simp)
    rw [capture, if_neg (by simp [hw])]
    cases hk : k (taken ++ [w]) ws with
    | some r' => exact ⟨1, r', by omega, by omega, rfl, by simpa using hk⟩
    | none =>
      rcases Nat.eq_zero_or_pos n with rfl | hpos
      · simp [hk] at hr
      · obtain ⟨m, r', h0', hm, hc, hr'⟩ := ih (taken ++ [w]) hpos (by simpa using hn)
          (fun v hv => hu v (by simp [hv])) (by simpa using hr)
        exact ⟨m + 1, r', by omega, by omega, by simpa using hc, by simpa using hr'⟩

end

/-! ## Fitting -/

theorem fit_word_eq_some {w : Text} {t : Template} {ws : List Text} {b b' : Bindings} :
    fit (.word w :: t) ws b = some b' ↔
      ∃ v rest, ws = v :: rest ∧ Text.lower w = Text.lower v ∧ fit t rest b = some b' := by
  cases ws with
  | nil => simp [fit]
  | cons v rest => by_cases h : Text.lower w = Text.lower v <;> simp [fit, h]

/-- A bound variable wants the words that it stands for. -/
theorem fit_bound {x : Text} {t : Template} {ws vs : List Text} {b : Bindings}
    (hx : b.get? x = some vs) (hws : ws ≠ []) :
    fit (.var x :: t) ws b =
      if Text.sameWords (ws.take vs.length) vs then fit t (ws.drop vs.length) b else none := by
  cases ws with
  | nil => exact absurd rfl hws
  | cons v rest => rw [fit, hx]

/-- A new variable takes words one after the other. -/
theorem fit_unbound {x : Text} {t : Template} {ws : List Text} {b : Bindings}
    (hx : b.get? x = none) :
    fit (.var x :: t) ws b =
      capture (fun taken rest => fit t rest (b.insert x taken)) [] ws := by
  cases ws with
  | nil => rfl
  | cons v rest => rw [fit, hx]

/-- The bindings `b'` add to `b` a reading of the statement, with variables of the template. -/
structure Found (t : Template) (ws : List Text) (b b' : Bindings) : Prop where
  keeps : b'.Extends b
  spells : t.Spells b' ws
  vars : ∀ x, (b'.get? x).isSome → (b.get? x).isSome ∨ x ∈ t.vars
  piece : ∀ x vs, b.get? x = none → b'.get? x = some vs → vs ≠ [] ∧ vs <:+: ws ∧ Unreserved vs

section
variable {t : Template} {ws vs : List Text} {b b' : Bindings} {x v w : Text}

theorem found_nil (b : Bindings) : Found [] [] b b where
  keeps := Bindings.Extends.refl _
  spells := spells_nil.2 rfl
  vars _ hx := .inl hx
  piece x vs hx hx' := by cases hx.symm.trans hx'

theorem Found.word (h : Found t ws b b') (hv : Text.lower w = Text.lower v) :
    Found (.word w :: t) (v :: ws) b b' where
  keeps := h.keeps
  spells := spells_word.2 ⟨v, ws, rfl, hv, h.spells⟩
  vars := h.vars
  piece y ys hy hy' := by
    obtain ⟨hne, hinfix, hu⟩ := h.piece y ys hy hy'
    exact ⟨hne, hinfix.trans (List.suffix_cons v ws).isInfix, hu⟩

/-- A bound variable stands for the words in front. -/
theorem Found.bound (h : Found t (ws.drop vs.length) b b') (hx : b.get? x = some vs)
    (hsame : Text.sameWords (ws.take vs.length) vs) : Found (.var x :: t) ws b b' where
  keeps := h.keeps
  spells := spells_var.2 ⟨vs, h.keeps x vs hx, hsame, h.spells⟩
  vars y hy := (h.vars y hy).imp_right (List.mem_cons_of_mem _)
  piece y ys hy hy' := by
    obtain ⟨hne, hinfix, hu⟩ := h.piece y ys hy hy'
    exact ⟨hne, hinfix.trans (List.drop_suffix _ _).isInfix, hu⟩

/-- A new variable takes some words in front. -/
theorem Found.unbound {n : Nat} (h : Found t (ws.drop n) (b.insert x (ws.take n)) b')
    (hx : b.get? x = none) (h0 : 0 < n) (hn : n ≤ ws.length) (hu : Unreserved (ws.take n)) :
    Found (.var x :: t) ws b b' := by
  have hlen : (ws.take n).length = n := List.length_take_of_le hn
  have hx' : b'.get? x = some (ws.take n) := h.keeps x _ (Dict.get?_insert_self b x _)
  refine ⟨h.keeps.trans (Bindings.extends_insert hx _), spells_var.2 ⟨ws.take n, hx', ?_, ?_⟩,
    fun y hy => ?_, fun y ys hy hy' => ?_⟩
  · rw [hlen]
    exact Text.sameWords_refl _
  · rw [hlen]
    exact h.spells
  · by_cases hyx : y = x
    · exact .inr (by simp [vars_var, hyx])
    · have := h.vars y hy
      rw [Dict.get?_insert_ne b _ hyx] at this
      exact this.imp_right (List.mem_cons_of_mem _)
  · by_cases hyx : y = x
    · subst hyx
      rw [hx'] at hy'
      cases hy'
      exact ⟨List.length_pos_iff.1 (hlen.symm ▸ h0), (List.take_prefix n ws).isInfix, hu⟩
    · obtain ⟨hne, hinfix, hu⟩ := h.piece y ys (by rw [Dict.get?_insert_ne b _ hyx]; exact hy) hy'
      exact ⟨hne, hinfix.trans (List.drop_suffix _ _).isInfix, hu⟩

/-- What a fit finds is a reading of the statement, with the variables of the template. -/
theorem fit_sound (h : fit t ws b = some b') : Found t ws b b' := by
  induction t generalizing ws b with
  | nil =>
    cases ws with
    | nil =>
      cases h
      exact found_nil _
    | cons v rest => cases h
  | cons s t ih =>
    cases s with
    | word w =>
      obtain ⟨v, rest, rfl, hv, hf⟩ := fit_word_eq_some.1 h
      exact (ih hf).word hv
    | var x =>
      cases hx : b.get? x with
      | some bound =>
        have hws : ws ≠ [] := by
          rintro rfl
          cases h
        rw [fit_bound hx hws] at h
        split at h
        · rename_i hsame
          exact (ih h).bound hx hsame
        · cases h
      | none =>
        rw [fit_unbound hx] at h
        obtain ⟨n, h0, hn, hu, hf⟩ := capture_sound h
        rw [List.nil_append] at hf
        exact (ih hf).unbound hx h0 hn hu

end

/-- A new variable may stand for the words of the statement itself. -/
theorem Suits.insert {x : Text} {t : Template} {ws vs : List Text} {b b' : Bindings}
    (h : Suits (.var x :: t) ws b b') (hx : b.get? x = none) (hx' : b'.get? x = some vs) :
    Suits t (ws.drop vs.length) (b.insert x (ws.take vs.length))
      (b'.insert x (ws.take vs.length)) := by
  obtain ⟨us, hus, hv, hr⟩ := spells_var.1 h.spells
  obtain rfl : us = vs := Option.some.inj (hus.symm.trans hx')
  refine ⟨fun y ys hy => ?_, hr.congr fun y ys hy => ?_, fun y ys hy hy' => ?_⟩
  · rw [Dict.get?_insert] at hy ⊢
    by_cases hyx : y = x
    · rwa [if_pos hyx] at hy ⊢
    · rw [if_neg hyx] at hy ⊢
      exact h.keeps y ys hy
  · rw [Dict.get?_insert]
    by_cases hyx : y = x
    · subst hyx
      rw [hx'] at hy
      cases hy
      exact ⟨_, if_pos rfl, hv⟩
    · exact ⟨ys, by rw [if_neg hyx, hy], Text.sameWords_refl ys⟩
  · have hyx : y ≠ x := by
      rintro rfl
      simp at hy
    rw [Dict.get?_insert_ne _ _ hyx] at hy hy'
    exact h.words y ys hy hy'

/-- Fitting finds bindings as soon as there are any with which the template suits the
    statement, and its new variables take the fewest words, the first variable first. -/
theorem fit_least {t : Template} {ws : List Text} {b b'' : Bindings} (hb : b.Filled)
    (h : t.Suits ws b b'') :
    ∃ b', fit t ws b = some b' ∧ LexLE (t.captured b b') (t.captured b b'') := by
  induction t generalizing ws b b'' with
  | nil =>
    obtain rfl := spells_nil.1 h.spells
    exact ⟨b, rfl, Or.inl rfl⟩
  | cons s t ih =>
    cases s with
    | word w =>
      obtain ⟨v, rest, rfl, hv, hr⟩ := spells_word.1 h.spells
      obtain ⟨b', hf, hl⟩ := ih hb ⟨h.keeps, hr, h.words⟩
      exact ⟨b', fit_word_eq_some.2 ⟨v, rest, rfl, hv, hf⟩, hl⟩
    | var x =>
      obtain ⟨vs, hx'', hv, hr⟩ := spells_var.1 h.spells
      have hlen : (ws.take vs.length).length = vs.length := Text.sameWords_length hv
      have hle : vs.length ≤ ws.length := by
        rw [List.length_take] at hlen
        omega
      cases hx : b.get? x with
      | some bound =>
        obtain rfl : bound = vs := Option.some.inj ((h.keeps x bound hx).symm.trans hx'')
        have hws : ws ≠ [] := by
          rintro rfl
          exact hb x bound hx (List.length_eq_zero_iff.1 (Nat.le_zero.1 hle))
        obtain ⟨b', hf, hl⟩ := ih hb ⟨h.keeps, hr, h.words⟩
        refine ⟨b', by rw [fit_bound hx hws, if_pos hv, hf], ?_⟩
        have hsome : (Dict.get? b x).isSome := by simp [hx]
        rwa [captured_bound _ hsome, captured_bound _ hsome]
      | none =>
        obtain ⟨hne, hu⟩ := h.words x vs hx hx''
        have h0 : 0 < vs.length := List.length_pos_iff.2 hne
        have hnt : ws.take vs.length ≠ [] := by
          rw [← List.length_pos_iff, hlen]
          exact h0
        obtain ⟨b₁, hf₁, hl₁⟩ := ih (hb.insert x hnt) (h.insert hx hx'')
        obtain ⟨n, b', hn0, hn, hc, hf⟩ :=
          capture_least (k := fun taken rest => fit t rest (b.insert x taken)) [] h0 hle
            (hu.sameWords hv) hf₁
        refine ⟨b', by rw [fit_unbound hx, hc], ?_⟩
        have hx' : b'.get? x = some (ws.take n) :=
          (fit_sound hf).keeps x _ (Dict.get?_insert_self b x _)
        rw [captured_unbound hx hx' (ws.take vs.length),
          captured_unbound hx hx'' (ws.take vs.length),
          List.length_take_of_le (hn.trans hle)]
        rcases Nat.lt_or_eq_of_le hn with hlt | rfl
        · exact Or.inr (.rel hlt)
        · obtain rfl : b' = b₁ := Option.some.inj (hf.symm.trans hf₁)
          have hsame : captured t (b.insert x (ws.take vs.length)) b'' =
              captured t (b.insert x (ws.take vs.length)) (b''.insert x (ws.take vs.length)) := by
            refine captured_congr fun y hy => ?_
            have hyx : y ≠ x := by
              rintro rfl
              simp at hy
            rw [Dict.get?_insert_ne _ _ hyx]
          rw [hsame]
          exact hl₁.cons

/-! ## Readings -/

theorem Reads.suits {t : Template} {ws : List Text} {b b' : Bindings} (h : t.Reads ws b b') :
    t.Suits ws b b' where
  keeps := h.keeps
  spells := h.spells
  words x vs hx hx' := ⟨(h.piece x vs hx hx').1, (h.piece x vs hx hx').2.2⟩

theorem bare?_eq_some {t : Template} {x : Text} : t.bare? = some x ↔ t = [.var x] := by
  unfold bare?
  split
  · simp
  · rename_i h
    simp only [reduceCtorEq, false_iff]
    exact fun he => h x he

end Template

namespace Pattern

theorem admits_iff {t : Template} {ws : List Text} {b : Bindings} :
    admits t ws b ↔ ∀ x, t = [.var x] → b.get? x = none → isAtomic ws := by
  unfold admits
  cases ht : t.bare? with
  | none =>
    simp only [true_iff]
    intro x hx
    rw [← Template.bare?_eq_some, ht] at hx
    cases hx
  | some y =>
    obtain rfl := Template.bare?_eq_some.1 ht
    cases hy : Dict.get? b y with
    | none => simp [Dict.contains, hy]
    | some vs => simp [Dict.contains, hy]

/-- A template that may be tried and fits reads the statement. -/
theorem reads_of_fit {t : Template} {ws : List Text} {b b' : Bindings} (ha : admits t ws b)
    (h : t.fit ws b = some b') : t.Reads ws b b' := by
  obtain ⟨he, hs, -, hp⟩ := Template.fit_sound h
  exact ⟨he, hs, hp, admits_iff.1 ha⟩

/-- The bindings after an attempt; a failed attempt leaves them as they were. -/
def after (p : Pattern) (ws : List Text) (b : Bindings) : Bindings := (p.fit ws b).getD b

/-- Some template of the pattern reads the statement. -/
def Accepts (p : Pattern) (ws : List Text) (b : Bindings) : Prop :=
  ∃ t ∈ p.templates, ∃ b', t.Reads ws b b'

theorem fit_eq_some {p : Pattern} {ws : List Text} {b b' : Bindings} (h : p.fit ws b = some b') :
    ∃ skipped t others, p.templates = skipped ++ t :: others ∧ admits t ws b ∧
      t.fit ws b = some b' ∧ ∀ s ∈ skipped, admits s ws b → s.fit ws b = none := by
  obtain ⟨skipped, t, others, hp, ht, hn⟩ := List.findSome?_eq_some_iff.1 h
  split at ht
  · rename_i ha
    refine ⟨skipped, t, others, hp, ha, ht, fun s hs has => ?_⟩
    simpa [has] using hn s hs
  · cases ht

theorem accepts_of_fit {p : Pattern} {ws : List Text} {b b' : Bindings} (h : p.fit ws b = some b') :
    p.Accepts ws b := by
  obtain ⟨skipped, t, others, hp, ha, ht, -⟩ := fit_eq_some h
  exact ⟨t, by simp [hp], b', reads_of_fit ha ht⟩

theorem fit_isSome_iff {p : Pattern} {ws : List Text} {b : Bindings} (hb : b.Filled) :
    (p.fit ws b).isSome ↔ p.Accepts ws b := by
  constructor
  · intro h
    obtain ⟨b', hb'⟩ := Option.isSome_iff_exists.1 h
    exact accepts_of_fit hb'
  · rintro ⟨t, ht, b', hr⟩
    obtain ⟨b₁, hf, -⟩ := Template.fit_least hb hr.suits
    rw [fit, List.findSome?_isSome_iff]
    exact ⟨t, ht, by rw [if_pos (admits_iff.2 hr.atomic), hf]; rfl⟩

/-- **The language of a pattern.**  A pattern fits a statement if and only if one of its
    templates reads it.  The first such template counts: the fit ends with bindings by which it
    reads the statement, keeps what was bound, binds the variables of the template besides and
    nothing else, and no other reading lets the new variables take fewer words, the first
    variable first.  A pattern that does not fit leaves the bindings as they were. -/
theorem fit_language (p : Pattern) (ws : List Text) (b : Bindings) (hb : b.Filled) :
    ((p.fit ws b).isSome ↔ ∃ t ∈ p.templates, ∃ b', t.Reads ws b b') ∧
    ((p.fit ws b).isSome → ∃ skipped t others, p.templates = skipped ++ t :: others ∧
      (∀ s ∈ skipped, ¬ ∃ b', s.Reads ws b b') ∧
      t.Reads ws b (p.after ws b) ∧
      (∀ x, ((p.after ws b).get? x).isSome ↔ (b.get? x).isSome ∨ x ∈ t.vars) ∧
      ∀ b', t.Reads ws b b' → Template.LexLE (t.captured b (p.after ws b)) (t.captured b b')) ∧
    (¬ (p.fit ws b).isSome → p.after ws b = b) := by
  refine ⟨fit_isSome_iff hb, fun h => ?_, fun h => ?_⟩
  · obtain ⟨b', hb'⟩ := Option.isSome_iff_exists.1 h
    have hafter : p.after ws b = b' := by rw [after, hb', Option.getD_some]
    obtain ⟨skipped, t, others, hp, ha, ht, hskip⟩ := fit_eq_some hb'
    have hread := reads_of_fit ha ht
    rw [hafter]
    refine ⟨skipped, t, others, hp, ?_, hread, fun x => ⟨?_, ?_⟩, ?_⟩
    · rintro s hs ⟨c, hc⟩
      obtain ⟨c', hc', -⟩ := Template.fit_least hb hc.suits
      rw [hskip s hs (admits_iff.2 hc.atomic)] at hc'
      cases hc'
    · exact (Template.fit_sound ht).vars x
    · rintro (hx | hx)
      · obtain ⟨vs, hvs⟩ := Option.isSome_iff_exists.1 hx
        rw [hread.keeps x vs hvs]
        rfl
      · exact hread.spells.isSome_get? hx
    · intro c hc
      obtain ⟨c', hc', hle⟩ := Template.fit_least hb hc.suits
      obtain rfl : b' = c' := Option.some.inj (ht.symm.trans hc')
      exact hle
  · rw [after, Option.not_isSome_iff_eq_none.1 h, Option.getD_none]

/-- A variable that is bound already has to agree, and the other one is found. -/
theorem fit_language_conditional :
    Bindings.Filled [(Text.ofString "P", Text.tokens "it rains")] ∧
      ∃ t ∈ (Pattern.ofText "if P then Q|P implies Q").templates, ∃ b',
        t.Reads (Text.tokens "If it rains, then the road is wet")
          [(Text.ofString "P", Text.tokens "it rains")] b' := by
  have hb : Bindings.Filled [(Text.ofString "P", Text.tokens "it rains")] := by
    intro x ws hx
    rw [Dict.get?_cons] at hx
    split at hx
    · cases hx
      decide
    · cases hx
  exact ⟨hb, (fit_language _ _ _ hb).1.1 (by decide)⟩

end Pattern

end Reasoning
