/-
  Which solutions of a rule are found.

  A solution of some patterns gives each of them a premise of its own and fills them all by one
  choice of words for the variables.  The search does not look for solutions as such: it takes
  the first reading of a premise and does not come back to it, and keeps neighbouring patterns
  that are nothing but a variable in the order of the premises.

  * `InferenceRule.Solves`: a solution;
  * `InferenceRule.InOrder`, `InferenceRule.FitsFirst`: what a solution has to be like to be
    found;
  * `Bindings.Agrees`: bindings that differ in the case of words only, under which the same
    statements are read, `Template.Reads.transfer`;
  * `InferenceRule.threaded_iff`: the patterns can be fitted one after the other exactly along
    the premises of such solutions;
  * `InferenceRule.Closed.apply_fires`: a rule applies if and only if it has one.
-/
import Mathlib.Data.List.Lex
import Mathlib.Data.List.Perm.Subperm
import Reasoning.Proofs.Inference

namespace Reasoning

/-! ## Bindings up to case -/

namespace Bindings

/-- The bindings of some variables only. -/
def only (b : Bindings) (xs : List Text) : Bindings := b.filter fun e => xs.contains e.1

/-- The same variables are bound, to words that differ in case at most. -/
def Agrees (b c : Bindings) : Prop :=
  ∀ x, (b.get? x).map (List.map Text.lower) = (c.get? x).map (List.map Text.lower)

variable {b c : Bindings} {x : Text} {xs : List Text}

theorem get?_only (b : Bindings) (xs : List Text) (x : Text) :
    (b.only xs).get? x = if x ∈ xs then b.get? x else none := by
  unfold only
  induction b with
  | nil => simp
  | cons e b ih =>
    obtain ⟨y, vs⟩ := e
    rw [List.filter_cons, Dict.get?_cons]
    by_cases hy : y ∈ xs
    · rw [if_pos (List.contains_iff_mem.2 hy), Dict.get?_cons, ih]
      by_cases hx : x = y
      · simp [hx, hy]
      · simp [hx]
    · rw [if_neg (fun h => hy (List.contains_iff_mem.1 h)), ih]
      by_cases hx : x = y
      · simp [hx, hy]
      · simp [hx]

theorem get?_append (b c : Bindings) (x : Text) :
    Dict.get? (b ++ c) x = (b.get? x).or (c.get? x) := List.lookup_append

theorem extends_only (b : Bindings) (xs : List Text) : b.Extends (b.only xs) := by
  intro x vs hx
  rw [get?_only] at hx
  split at hx
  · exact hx
  · cases hx

theorem Proper.filled (hb : b.Proper) : b.Filled := fun x vs hx => (hb x vs hx).1

theorem Agrees.symm (h : b.Agrees c) : c.Agrees b := fun x => (h x).symm

theorem Agrees.get? (h : b.Agrees c) {vs : List Text} (hx : b.get? x = some vs) :
    ∃ us, c.get? x = some us ∧ Text.sameWords us vs := by
  have hc := h x
  rw [hx, Option.map_some, eq_comm, Option.map_eq_some_iff] at hc
  obtain ⟨us, hus, hsame⟩ := hc
  exact ⟨us, hus, Text.sameWords_iff.2 hsame⟩

theorem Agrees.get?_eq_none (h : b.Agrees c) : b.get? x = none ↔ c.get? x = none := by
  rw [← Option.map_eq_none_iff (f := List.map Text.lower), h x, Option.map_eq_none_iff]

theorem Agrees.filled (h : b.Agrees c) (hc : c.Filled) : b.Filled := by
  rintro x vs hx rfl
  obtain ⟨us, hus, hsame⟩ := h.get? hx
  exact hc x us hus (List.length_eq_zero_iff.1 (Text.sameWords_length hsame))

/-- Bindings go on to agree when some variables are added with the same words. -/
theorem Agrees.extend {b c c' : Bindings} {seen xs : List Text} (h : c.Agrees (b.only seen))
    (hkeeps : c'.Extends c) (hvars : ∀ x, (c'.get? x).isSome → (c.get? x).isSome ∨ x ∈ xs)
    (hnew : ∀ x ∈ xs, c.get? x = none →
      (c'.get? x).map (List.map Text.lower) = (b.get? x).map (List.map Text.lower)) :
    c'.Agrees (b.only (seen ++ xs)) := by
  intro x
  have hx := h x
  rw [get?_only] at hx ⊢
  cases hc : c.get? x with
  | some vs =>
    rw [hc] at hx
    rw [hkeeps x vs hc, hx]
    split
    · rename_i hseen
      rw [if_pos (List.mem_append_left _ hseen)]
    · rename_i hseen
      rw [if_neg hseen] at hx
      cases hx
  | none =>
    by_cases hxs : x ∈ xs
    · rw [if_pos (List.mem_append_right _ hxs), hnew x hxs hc]
    · have hnone : c'.get? x = none := Option.not_isSome_iff_eq_none.1 fun hsome =>
        (hvars x hsome).elim (by simp [hc]) hxs
      rw [hc] at hx
      rw [hnone, hx]
      by_cases hseen : x ∈ seen <;> simp [hseen, hxs]

end Bindings

/-! ## Readings up to case -/

namespace Template

variable {t : Template} {ws : List Text} {b b' c c' : Bindings} {x : Text}

theorem mem_vars_of_mem_newVars (hx : x ∈ t.newVars b) : x ∈ t.vars :=
  (List.mem_filter.1 (Text.mem_distinct.1 hx)).1

theorem newVars_congr (h : b.Agrees c) : t.newVars b = t.newVars c := by
  have hcontains : (fun x => !Dict.contains b x) = fun x => !Dict.contains c x := by
    funext x
    unfold Dict.contains
    rw [← Option.isSome_map, h x, Option.isSome_map]
  rw [newVars, hcontains, newVars]

theorem LexLE.iff_le {as bs : List Nat} : LexLE as bs ↔ as ≤ bs := by
  rw [le_iff_lt_or_eq, or_comm]
  rfl

/-- What suits a statement after some bindings suits it, with as many words for each new
    variable, after those that agree. -/
theorem Suits.transfer (h : t.Suits ws b b') (hc : b.Agrees c) :
    t.Suits ws c (c ++ b') ∧ t.captured c (c ++ b') = t.captured b b' := by
  refine ⟨⟨fun x vs hx => ?_, h.spells.congr fun x vs hx => ?_, fun x vs hx hx' => ?_⟩, ?_⟩
  · rw [Bindings.get?_append, hx, Option.some_or]
  · rw [Bindings.get?_append]
    cases hcx : c.get? x with
    | none => exact ⟨vs, hx, Text.sameWords_refl vs⟩
    | some us =>
      obtain ⟨vs', hbx, hsame⟩ := hc.symm.get? hcx
      obtain rfl : vs' = vs := Option.some.inj ((h.keeps x vs' hbx).symm.trans hx)
      exact ⟨us, rfl, Text.sameWords_symm hsame⟩
  · rw [Bindings.get?_append, hx, Option.none_or] at hx'
    exact h.words x vs (hc.get?_eq_none.2 hx) hx'
  · unfold captured
    rw [newVars_congr hc]
    refine List.map_congr_left fun x hx => ?_
    rw [Bindings.get?_append, mem_newVars hx, Option.none_or]

/-- A statement that is read after some bindings is read after those that agree, and the new
    variables need no more words. -/
theorem Reads.transfer (h : t.Reads ws b b') (hc : b.Agrees c) (hfilled : c.Filled) :
    ∃ c', t.Reads ws c c' ∧ LexLE (t.captured c c') (t.captured b b') := by
  obtain ⟨hsuits, hcaptured⟩ := h.suits.transfer hc
  obtain ⟨c', hfit, hle⟩ := fit_least hfilled hsuits
  rw [hcaptured] at hle
  refine ⟨c', Pattern.reads_of_fit (Pattern.admits_iff.2 fun x ht hx => ?_) hfit, hle⟩
  exact h.atomic x ht (hc.get?_eq_none.2 hx)

/-- Two ways to spell a statement that give every new variable as many words give it the same
    words. -/
theorem Spells.sameWords_of_captured (hb : t.Spells b' ws) (hc : t.Spells c' ws)
    (hcaptured : t.captured b b' = t.captured b c')
    (hold : ∀ x, (b.get? x).isSome →
      ((b'.get? x).getD []).length = ((c'.get? x).getD []).length) (hx : x ∈ t.vars) :
    ∃ vs us, b'.get? x = some vs ∧ c'.get? x = some us ∧ Text.sameWords vs us := by
  induction t generalizing ws b with
  | nil => cases hx
  | cons s t ih =>
    cases s with
    | word w =>
      obtain ⟨v, rest, rfl, -, hb⟩ := spells_word.1 hb
      obtain ⟨_, _, hcons, -, hc⟩ := spells_word.1 hc
      cases hcons
      exact ih hb hc hcaptured hold hx
    | var y =>
      obtain ⟨vs, hvs, hwb, hb⟩ := spells_var.1 hb
      obtain ⟨us, hus, hwc, hc⟩ := spells_var.1 hc
      -- The words of `y` begin at the same place, so that their number decides.
      have hlen : vs.length = us.length ∧ ∃ d, captured t d b' = captured t d c' ∧
          ∀ x, (Dict.get? d x).isSome →
            ((b'.get? x).getD []).length = ((c'.get? x).getD []).length := by
        cases hy : b.get? y with
        | some old =>
          have hsome : (Dict.get? b y).isSome := by simp [hy]
          rw [captured_bound _ hsome, captured_bound _ hsome] at hcaptured
          have := hold y hsome
          rw [hvs, hus, Option.getD_some, Option.getD_some] at this
          exact ⟨this, b, hcaptured, hold⟩
        | none =>
          rw [captured_unbound hy hvs vs, captured_unbound hy hus vs, List.cons.injEq] at hcaptured
          refine ⟨hcaptured.1, b.insert y vs, hcaptured.2, fun x hx => ?_⟩
          rw [Dict.get?_insert] at hx
          split at hx
          · rename_i hxy
            rw [hxy, hvs, hus, Option.getD_some, Option.getD_some]
            exact hcaptured.1
          · exact hold x hx
      obtain ⟨hlen, d, hcaptured, hold⟩ := hlen
      rw [hlen] at hwb hb
      rcases List.mem_cons.1 hx with rfl | hx
      · exact ⟨vs, us, hvs, hus, Text.sameWords_trans (Text.sameWords_symm hwb) hwc⟩
      · exact ih hb hc hcaptured hold hx

end Template

/-! ## First readings -/

namespace Pattern

/-- The variables of all templates. -/
def vars (p : Pattern) : List Text := p.templates.flatMap Template.vars

/-- The template is the first one that reads the statement while `b` is bound, and suits it with
    the words of `b'`, of which no reading takes fewer, the first variable first. -/
structure FirstReads (p : Pattern) (t : Template) (ws : List Text) (b b' : Bindings) : Prop where
  first : ∃ skipped others, p.templates = skipped ++ t :: others ∧
    ∀ s ∈ skipped, ¬ ∃ c, s.Reads ws b c
  suits : t.Suits ws b b'
  atomic : ∀ x, t = [.var x] → b.get? x = none → isAtomic ws
  least : ∀ c, t.Reads ws b c → Template.LexLE (t.captured b b') (t.captured b c)

variable {p : Pattern} {t : Template} {ws seen : List Text} {b c c' : Bindings}

theorem FirstReads.mem (h : p.FirstReads t ws b c) : t ∈ p.templates := by
  obtain ⟨_, _, hp, -⟩ := h.first
  simp [hp]

/-- A pattern fits what one of its templates reads first, and binds the same words. -/
theorem FirstReads.fit (h : p.FirstReads t ws (b.only seen) b) (hb : b.Proper)
    (hc : c.Agrees (b.only seen)) :
    ∃ c', p.fit ws c = some c' ∧ c'.Agrees (b.only (seen ++ t.vars)) := by
  have honly : (b.only seen).Filled := fun x vs hx => hb.filled x vs (b.extends_only seen x vs hx)
  have hfilled : c.Filled := hc.filled honly
  obtain ⟨hsuits, hcaptured⟩ := h.suits.transfer hc.symm
  obtain ⟨c', hfit, hle⟩ := Template.fit_least hfilled hsuits
  have hadmits : admits t ws c := admits_iff.2 fun x ht hx =>
    h.atomic x ht (hc.get?_eq_none.1 hx)
  obtain ⟨skipped, others, hp, hskipped⟩ := h.first
  refine ⟨c', List.findSome?_eq_some_iff.2 ⟨skipped, t, others, hp, ?_, fun s hs => ?_⟩, ?_⟩
  · rw [if_pos hadmits, hfit]
  · split
    · rename_i hs'
      rw [Option.eq_none_iff_forall_ne_some]
      intro d hd
      obtain ⟨d', hd', -⟩ := (reads_of_fit hs' hd).transfer hc honly
      exact hskipped s hs ⟨d', hd'⟩
    · rfl
  · -- The fit takes no more words than `b` does, and `b` no more than any reading.
    have heq : t.captured c c' = t.captured c (c ++ b) := by
      obtain ⟨d, hd, hle'⟩ := (reads_of_fit hadmits hfit).transfer hc honly
      rw [Template.LexLE.iff_le] at hle hle'
      refine le_antisymm hle ?_
      rw [hcaptured]
      exact le_trans (Template.LexLE.iff_le.1 (h.least d hd)) hle'
    obtain ⟨hkeeps, hspells, hvars, -⟩ := Template.fit_sound hfit
    refine hc.extend hkeeps hvars fun x hx hnone => ?_
    obtain ⟨vs, us, hvs, hus, hsame⟩ := hspells.sameWords_of_captured hsuits.spells heq
      (fun y hy => by
        obtain ⟨ys, hys⟩ := Option.isSome_iff_exists.1 hy
        rw [hkeeps y ys hys, hsuits.keeps y ys hys]) hx
    rw [Bindings.get?_append, hnone, Option.none_or] at hus
    rw [hvs, hus]
    exact congrArg some (Text.sameWords_iff.1 hsame)

/-- What a pattern fits one of its templates reads first, under all bindings that come of it. -/
theorem firstReads_of_fit (h : p.fit ws c = some c') (hb : b.Proper) (hkeeps : b.Extends c')
    (hc : c.Agrees (b.only seen)) :
    ∃ t, p.FirstReads t ws (b.only seen) b ∧ c'.Agrees (b.only (seen ++ t.vars)) := by
  have honly : (b.only seen).Filled := fun x vs hx => hb.filled x vs (b.extends_only seen x vs hx)
  have hfilled : c.Filled := hc.filled honly
  obtain ⟨skipped, t, others, hp, hskipped, hreads, hvars, hleast⟩ :=
    (fit_language p ws c hfilled).2.1 (by rw [h]; rfl)
  rw [after, h, Option.getD_some] at hreads hvars hleast
  have hbound : ∀ x ∈ t.vars, b.get? x = c'.get? x := fun x hx => by
    obtain ⟨vs, hvs⟩ := Option.isSome_iff_exists.1 ((hvars x).2 (.inr hx))
    rw [hvs, hkeeps x vs hvs]
  have hcaptured : t.captured (b.only seen) b = t.captured c c' := by
    unfold Template.captured
    rw [Template.newVars_congr hc]
    refine List.map_congr_left fun x hx => ?_
    rw [hbound x (Template.mem_vars_of_mem_newVars hx)]
  refine ⟨t, ⟨⟨skipped, others, hp, ?_⟩, ⟨b.extends_only seen, hreads.spells.mono hkeeps,
    fun x vs _ hx => hb x vs hx⟩, ?_, fun d hd => ?_⟩, ?_⟩
  · rintro s hs ⟨d, hd⟩
    obtain ⟨d', hd', -⟩ := hd.transfer hc.symm hfilled
    exact hskipped s hs ⟨d', hd'⟩
  · exact fun x ht hx => hreads.atomic x ht (hc.get?_eq_none.2 hx)
  · obtain ⟨d', hd', hle⟩ := hd.transfer hc.symm hfilled
    have hle' := hleast d' hd'
    rw [Template.LexLE.iff_le] at hle hle' ⊢
    rw [hcaptured]
    exact le_trans hle' hle
  · exact hc.extend hreads.keeps (fun x => (hvars x).1) fun x hx _ => by rw [hbound x hx]

end Pattern

/-! ## Solutions -/

namespace InferenceRule

/-- A solution: each pattern has a premise of its own, and under `b` one of its templates is this
    premise.  A template that is nothing but a variable wants an atomic premise, unless the
    variable occurs in a pattern before. -/
structure Solves (ps : List Pattern) (wss : List (List Text)) (is : List Nat) (b : Bindings) :
    Prop where
  length : is.length = ps.length
  distinct : is.Nodup
  proper : b.Proper
  fits : ∀ (k : Nat) (p : Pattern) (i : Nat), ps[k]? = some p → is[k]? = some i →
    ∃ ws, wss[i]? = some ws ∧ ∃ t ∈ p.templates, t.Spells b ws ∧
    ∀ x, t = [.var x] → (∀ q ∈ ps.take k, x ∉ q.vars) → isAtomic ws

/-- One pattern after the other, the premise is read first by the template that `b` fills, with
    the variables `seen` bound already. -/
inductive FitsFirst (b : Bindings) (wss : List (List Text)) :
    List Text → List Pattern → List Nat → Prop
  | nil {seen} : FitsFirst b wss seen [] []
  | cons {seen p ps i is ws t} : wss[i]? = some ws → p.FirstReads t ws (b.only seen) b →
      FitsFirst b wss (seen ++ t.vars) ps is → FitsFirst b wss seen (p :: ps) (i :: is)

variable {ps : List Pattern} {wss : List (List Text)} {is : List Nat} {b c c' : Bindings}
  {seen : List Text}

theorem FitsFirst.fits (h : FitsFirst b wss seen ps is) :
    is.length = ps.length ∧ ∀ (k : Nat) (p : Pattern) (i : Nat), ps[k]? = some p → is[k]? = some i →
      ∃ ws, wss[i]? = some ws ∧ ∃ t ∈ p.templates, t.Spells b ws ∧
      ∀ x, t = [.var x] → x ∉ seen → (∀ q ∈ ps.take k, x ∉ q.vars) → isAtomic ws := by
  induction h with
  | nil => exact ⟨rfl, fun k p i hp => by simp at hp⟩
  | @cons seen p ps i is ws t hi hfirst hrest ih =>
    refine ⟨congrArg (· + 1) ih.1, fun k q j hq hj => ?_⟩
    cases k with
    | zero =>
      cases hq
      cases hj
      refine ⟨ws, hi, t, hfirst.mem, hfirst.suits.spells, fun x ht hx _ => ?_⟩
      exact hfirst.atomic x ht (by rw [Bindings.get?_only, if_neg hx])
    | succ k =>
      obtain ⟨vs, hvs, u, hu, hspells, hatomic⟩ := ih.2 k q j hq hj
      refine ⟨vs, hvs, u, hu, hspells, fun x hx hseen hbefore => hatomic x hx ?_ ?_⟩
      · rw [List.mem_append, not_or]
        refine ⟨hseen, fun hxt => hbefore p (List.mem_cons_self ..) ?_⟩
        exact List.mem_flatMap.2 ⟨t, hfirst.mem, hxt⟩
      · exact fun r hr => hbefore r (List.mem_cons_of_mem _ hr)

theorem Threaded.length_eq (h : Threaded wss ps is b c) : is.length = ps.length := by
  induction h with
  | nil => rfl
  | cons _ _ _ ih => exact congrArg (· + 1) ih

theorem FitsFirst.threaded (h : FitsFirst b wss seen ps is) (hb : b.Proper)
    (hc : c.Agrees (b.only seen)) : ∃ c', Threaded wss ps is c c' := by
  induction h generalizing c with
  | nil => exact ⟨c, .nil⟩
  | cons hi hfirst _ ih =>
    obtain ⟨c₁, hfit, hc₁⟩ := hfirst.fit hb hc
    obtain ⟨c', h'⟩ := ih hc₁
    exact ⟨c', .cons hi hfit h'⟩

theorem Threaded.fitsFirst (h : Threaded wss ps is c b) (hb : b.Proper)
    (hc : c.Agrees (b.only seen)) : FitsFirst b wss seen ps is := by
  induction h generalizing seen with
  | nil => exact .nil
  | cons hi hfit hrest ih =>
    obtain ⟨t, hfirst, hc₁⟩ := Pattern.firstReads_of_fit hfit hb hrest.sound.1 hc
    exact .cons hi hfirst (ih hb hc₁)

/-- What can be fitted from the start is a solution that is found. -/
theorem threaded_iff :
    (is.Nodup ∧ InOrder ps is ∧ ∃ b, Threaded wss ps is [] b) ↔
      ∃ b, Solves ps wss is b ∧ InOrder ps is ∧ FitsFirst b wss [] ps is := by
  have hstart : ∀ b : Bindings, Bindings.Agrees [] (b.only []) := fun b x => by
    rw [Bindings.get?_only]
    simp
  constructor
  · rintro ⟨hdistinct, horder, b, h⟩
    have hb : b.Proper := h.sound.2.1 fun x vs hx => by simp at hx
    have hfirst := h.fitsFirst hb (hstart b)
    obtain ⟨hlength, hfits⟩ := hfirst.fits
    refine ⟨b, ⟨hlength, hdistinct, hb, fun k p i hp hi => ?_⟩, horder, hfirst⟩
    obtain ⟨ws, hws, t, ht, hspells, hatomic⟩ := hfits k p i hp hi
    exact ⟨ws, hws, t, ht, hspells, fun x hx => hatomic x hx (List.not_mem_nil)⟩
  · rintro ⟨b, hsolves, horder, hfirst⟩
    exact ⟨hsolves.distinct, horder, hfirst.threaded hsolves.proper (hstart b)⟩

/-! ## Rules that apply -/

/-- No antecedent is empty, and every variable of the consequent occurs in all templates of some
    antecedent. -/
structure Closed (r : InferenceRule) : Prop where
  antecedents : ∀ a ∈ r.antecedents, (Pattern.ofText a).isEmpty = false
  consequent : ∀ x ∈ (Template.ofText r.consequent).vars, ∃ a ∈ r.antecedents,
    ∀ t ∈ (Pattern.ofText a).templates, x ∈ t.vars

theorem FitsAll.isSome_get? {b : Bindings} {seen : List Text} {ps : List Pattern}
    {wss : List (List Text)} (h : FitsAll b seen ps wss) {p : Pattern} (hp : p ∈ ps) {x : Text}
    (hx : ∀ t ∈ p.templates, x ∈ t.vars) : (b.get? x).isSome := by
  induction h with
  | nil => cases hp
  | cons ht hspells _ _ ih =>
    rcases List.mem_cons.1 hp with rfl | hp
    · exact hspells.isSome_get? (hx _ ht)
    · exact ih hp

theorem exists_mapM {ε α β : Type} {f : α → Except ε β} {l : List α}
    (h : ∀ a ∈ l, ∃ y, f a = .ok y) :
    ∃ ys, l.mapM f = .ok ys ∧ List.Forall₂ (fun a y => f a = .ok y) l ys := by
  induction l with
  | nil => exact ⟨[], rfl, .nil⟩
  | cons a l ih =>
    obtain ⟨y, hy⟩ := h a (List.mem_cons_self ..)
    obtain ⟨ys, hys, hall⟩ := ih fun c hc => h c (List.mem_cons_of_mem _ hc)
    refine ⟨y :: ys, ?_, .cons hy hall⟩
    rw [List.mapM_cons, hy, hys]
    rfl

theorem instantiate_eq_ok {text : Text} {b : Bindings}
    (h : ∀ x ∈ (Template.ofText text).vars, (b.get? x).isSome) :
    ∃ c, instantiate text b = .ok c := by
  obtain ⟨vs, hvs, -⟩ : ∃ vs, (Template.ofText text).mapM (Slot.fill b) = .ok vs ∧ _ :=
    exists_mapM fun s hs => by
      cases s with
      | word w => exact ⟨[w], rfl⟩
      | var x =>
        obtain ⟨ws, hws⟩ := Option.isSome_iff_exists.1
          (h x (List.mem_filterMap.2 ⟨.var x, hs, rfl⟩))
        exact ⟨ws, by rw [Slot.fill, hws]⟩
  exact ⟨_, by rw [instantiate, hvs]; rfl⟩

theorem distinctConclusions_eq_nil {ms : List RuleMatch} :
    distinctConclusions ms = [] ↔ ms = [] := by
  unfold distinctConclusions
  induction ms using List.reverseRecOn with
  | nil => simp
  | append_singleton ms m _ =>
    rw [List.foldl_concat]
    split
    · rename_i h
      obtain ⟨k, hk, -⟩ := List.any_eq_true.1 h
      exact iff_of_false (List.ne_nil_of_mem hk) (by simp)
    · simp

theorem length_le_of_nodup {n : Nat} (hnodup : is.Nodup) (hlt : ∀ i ∈ is, i < n) :
    is.length ≤ n := by
  have := (List.Nodup.subperm hnodup fun i hi => List.mem_range.2 (hlt i hi)).length_le
  rwa [List.length_range] at this

variable {r : InferenceRule}

theorem patterns_eq_ok (h : ∀ a ∈ r.antecedents, (Pattern.ofText a).isEmpty = false) :
    r.patterns = .ok (r.antecedents.map Pattern.ofText) := by
  unfold patterns
  dsimp only
  rw [if_neg]
  intro hany
  obtain ⟨p, hp, hempty⟩ := List.any_eq_true.1 hany
  obtain ⟨a, ha, rfl⟩ := List.mem_map.1 hp
  rw [h a ha] at hempty
  cases hempty

/-- There is no way to give every pattern a premise of its own if there are too few. -/
theorem ways_eq_nil_of_length_lt (h : wss.length < ps.length) :
    ways wss.zipIdx ps false ([], []) = [] := by
  refine List.eq_nil_iff_forall_not_mem.2 fun s hs => ?_
  obtain ⟨is, -, hnodup, -, -, -, ht⟩ := mem_ways_iff.1 hs
  have := length_le_of_nodup hnodup ht.sound.2.2.1
  have hlength := ht.length_eq
  omega

/-- A rule without empty antecedents makes matches of the first ways to apply it. -/
theorem apply_eq (h : ∀ a ∈ r.antecedents, (Pattern.ofText a).isEmpty = false)
    (wss : List (List Text)) :
    r.apply wss = (((ways wss.zipIdx (r.antecedents.map Pattern.ofText) false ([], [])).take
      maxMatches).mapM r.matchOf).map distinctConclusions := by
  unfold apply
  rw [patterns_eq_ok h]
  simp only [bind, Except.bind]
  split
  · rename_i hshort
    rw [ways_eq_nil_of_length_lt hshort]
    rfl
  · rw [select_eq _ _ _ _ _ (Nat.zero_le _), List.nil_append]
    cases List.mapM r.matchOf _ <;> rfl

namespace Closed

theorem matchOf_eq_ok (h : r.Closed) {s : Selection}
    (hs : s ∈ ways wss.zipIdx (r.antecedents.map Pattern.ofText) false ([], [])) :
    ∃ m, r.matchOf s = .ok m := by
  obtain ⟨is, -, -, -, -, -, ht⟩ := mem_ways_iff.1 hs
  obtain ⟨-, -, -, hfit⟩ := ht.sound
  obtain ⟨c, hc⟩ : ∃ c, instantiate r.consequent s.1 = .ok c := instantiate_eq_ok fun x hx => by
    obtain ⟨a, ha, hvars⟩ := h.consequent x hx
    exact FitsAll.isSome_get? (hfit [] fun x hx => by simp at hx) (List.mem_map_of_mem ha) hvars
  exact ⟨_, by rw [matchOf, hc]⟩

/-- A rule applies as soon as there is a way to apply it: none of the ways fails, and the limit
    on matches leaves the first one. -/
theorem exists_apply (h : r.Closed) (wss : List (List Text)) :
    ∃ ms, r.apply wss = .ok ms ∧
      (ms = [] ↔ ways wss.zipIdx (r.antecedents.map Pattern.ofText) false ([], []) = []) := by
  obtain ⟨ms, hms, hall⟩ := exists_mapM (f := r.matchOf)
    (l := (ways wss.zipIdx (r.antecedents.map Pattern.ofText) false ([], [])).take maxMatches)
    fun s hs => h.matchOf_eq_ok (List.mem_of_mem_take hs)
  refine ⟨distinctConclusions ms, by rw [apply_eq h.antecedents, hms]; rfl, ?_⟩
  rw [distinctConclusions_eq_nil, ← List.length_eq_zero_iff, ← hall.length_eq,
    List.length_eq_zero_iff, List.take_eq_nil_iff]
  simp [maxMatches]

/-- **Which rules apply.**  A rule without empty antecedents whose consequent has no other
    variables than its antecedents is never in fault, and applies to premises if and only if it
    has a solution that is found: one that takes the first reading of every premise, and takes
    the premises of neighbouring antecedents that are nothing but a variable in their order. -/
theorem apply_fires (h : r.Closed) (wss : List (List Text)) :
    ∃ ms, r.apply wss = .ok ms ∧
      (ms ≠ [] ↔ ∃ is b, Solves (r.antecedents.map Pattern.ofText) wss is b ∧
        InOrder (r.antecedents.map Pattern.ofText) is ∧
        FitsFirst b wss [] (r.antecedents.map Pattern.ofText) is) := by
  obtain ⟨ms, hms, hnil⟩ := h.exists_apply wss
  refine ⟨ms, hms, ?_⟩
  rw [ne_eq, hnil, ← ne_eq]
  constructor
  · intro hne
    obtain ⟨s, hs⟩ := List.exists_mem_of_ne_nil _ hne
    obtain ⟨is, -, hnodup, -, -, horder, ht⟩ := mem_ways_iff.1 hs
    exact ⟨is, threaded_iff.1 ⟨hnodup, horder, s.1, ht⟩⟩
  · rintro ⟨is, h⟩
    obtain ⟨hnodup, horder, b, ht⟩ := threaded_iff.2 h
    have hway : (b, is.reverse) ∈
        ways wss.zipIdx (r.antecedents.map Pattern.ofText) false ([], []) :=
      mem_ways_iff.2 ⟨is, (List.append_nil _).symm, hnodup, by simp, by simp, horder, ht⟩
    exact List.ne_nil_of_mem hway

/-- From a choice and the denial of its second part the first part follows. -/
theorem apply_fires_choice :
    let r : InferenceRule := ⟨"choice", "Choice", .deduction,
      Text.ofStrings ["P or Q", "not Q"], "P", 0.9, []⟩
    let wss := [Text.tokens "it is late or it is dark", Text.tokens "not it is dark"]
    r.Closed ∧ ∃ is b, Solves (r.antecedents.map Pattern.ofText) wss is b ∧
      InOrder (r.antecedents.map Pattern.ofText) is ∧
      FitsFirst b wss [] (r.antecedents.map Pattern.ofText) is := by
  intro r wss
  have hclosed : r.Closed := ⟨by decide, by decide⟩
  obtain ⟨ms, hms, hiff⟩ := hclosed.apply_fires wss
  refine ⟨hclosed, hiff.1 ?_⟩
  rintro rfl
  revert hms
  decide

/-- A choice of three: its first part is read as one word, which the denial does not leave, and
    the reading with two words is not tried. -/
theorem apply_misses_choice :
    let r : InferenceRule := ⟨"choice", "Choice", .deduction,
      Text.ofStrings ["P or Q", "not Q"], "P", 0.9, []⟩
    let wss := [Text.tokens "a or b or c", Text.tokens "not c"]
    let b : Bindings := [("P", Text.ofStrings ["a", "or", "b"]), ("Q", Text.ofStrings ["c"])]
    r.Closed ∧ Solves (r.antecedents.map Pattern.ofText) wss [0, 1] b ∧ r.apply wss = .ok [] := by
  intro r wss b
  refine ⟨⟨by decide, by decide⟩, ⟨rfl, by decide, fun x vs hx => ?_, fun k p i hp hi => ?_⟩,
    by decide⟩
  · rw [Dict.get?_cons, Dict.get?_cons] at hx
    split at hx
    · cases hx
      exact ⟨by decide, by decide⟩
    · split at hx
      · cases hx
        exact ⟨by decide, by decide⟩
      · cases hx
  · match k, hp, hi with
    | 0, hp, hi =>
      cases hp
      cases hi
      exact ⟨_, rfl, _, List.mem_cons_self .., ⟨_, rfl, by decide⟩, fun x hx => nomatch hx⟩
    | 1, hp, hi =>
      cases hp
      cases hi
      exact ⟨_, rfl, _, List.mem_cons_self .., ⟨_, rfl, by decide⟩, fun x hx => nomatch hx⟩

end Closed

end InferenceRule

end Reasoning
