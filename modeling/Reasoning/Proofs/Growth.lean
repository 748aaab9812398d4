/-
  Ledgers that grow by appends.

  * `Ledger.Attempt`: a step as it is offered, `Ledger.offer`: the ledger after an attempt, which
    a refusal leaves as it is; `Ledger.appendAll?`: attempts none of which may be refused;
  * `Ledger.offer_cases`: an attempt is accepted exactly when all its references are good;
  * `Ledger.Accepted`: a well-formed ledger of scores, which `Ledger.Accepted.appendAll?_steps`
    shows to be what its own steps come to when they are appended one by one;
  * `Ledger.Reaches`: an accepted ledger with the steps up to a number, `Ledger.Reaches.foldl` and
    `Ledger.Reaches.foldl_push`: steps added in turn that rest on the steps up to it.
-/
import Mathlib.Data.List.Induction
import Reasoning.Proofs.Ledger
import Reasoning.Proofs.Order

namespace Reasoning

namespace Ledger

/-! ## Attempts -/

/-- A step as it is offered to a ledger. -/
structure Attempt where
  kind : Step.Kind
  content : Text
  justification : Text
  confidence : Single
  refs : List Nat

/-- The attempt that a step comes of. -/
def Attempt.ofStep (s : Step) : Attempt :=
  ⟨s.kind, s.content, s.justification, s.confidence, s.refs⟩

/-- What comes of an attempt: the number of the new step with the new ledger, or a refusal. -/
def attempt? (l : Ledger) (a : Attempt) : Except Error (Nat × Ledger) :=
  l.append? a.kind a.content a.justification a.confidence a.refs

/-- The ledger after an attempt. -/
def offer (l : Ledger) (a : Attempt) : Ledger :=
  match l.attempt? a with
  | .ok (_, l') => l'
  | .error _ => l

/-- The ledger after attempts one after the other, accepted or refused. -/
def offerAll (l : Ledger) (as : List Attempt) : Ledger := as.foldl offer l

/-- The ledger after attempts one after the other, if none is refused. -/
def appendAll? (l : Ledger) (as : List Attempt) : Except Error Ledger :=
  as.foldlM (fun l a => (l.attempt? a).map (·.2)) l

variable {l : Ledger} {a : Attempt} {kind : Step.Kind} {content why : Text} {x : Single}
  {refs : List Nat}

theorem badRef?_eq_none : l.badRef? refs = none ↔ ∀ r ∈ refs, 0 < r ∧ r < l.nextSeq := by
  unfold badRef?
  rw [List.find?_eq_none]
  refine forall₂_congr fun r _ => ?_
  rw [Bool.or_eq_true, decide_eq_true_eq, decide_eq_true_eq]
  omega

/-- Good references are accepted. -/
theorem append?_eq_ok (h : ∀ r ∈ refs, 0 < r ∧ r < l.nextSeq) :
    l.append? kind content why x refs = .ok (l.nextSeq, l.push kind content why x refs) := by
  unfold append?
  rw [badRef?_eq_none.2 h]

/-- An attempt is accepted if its references are good, and else refused for one that is not. -/
theorem offer_cases (l : Ledger) (a : Attempt) :
    ((∀ r ∈ a.refs, 0 < r ∧ r < l.nextSeq) ∧ l.attempt? a = .ok (l.nextSeq, l.offer a) ∧
      l.offer a = l.push a.kind a.content a.justification a.confidence a.refs) ∨
    (∃ r ∈ a.refs, (r = 0 ∨ l.nextSeq ≤ r) ∧ l.attempt? a = .error (.unknownReference r)) ∧
      l.offer a = l := by
  unfold offer attempt? append?
  cases h : l.badRef? a.refs with
  | none => exact .inl ⟨badRef?_eq_none.1 h, rfl, rfl⟩
  | some r =>
    have hbad := List.find?_some h
    rw [Bool.or_eq_true, decide_eq_true_eq, decide_eq_true_eq] at hbad
    exact .inr ⟨⟨r, List.mem_of_find?_eq_some h, hbad, rfl⟩, rfl⟩

theorem size_push : (l.push kind content why x refs).size = l.size + 1 := List.length_append

/-- Every step is of one of the kinds. -/
theorem sum_count (l : Ledger) :
    l.count .premise + l.count .inference + l.count .conclusion = l.size := by
  unfold count size
  induction l.steps with
  | nil => rfl
  | cons s steps ih =>
    simp only [List.countP_cons, List.length_cons]
    cases s.kind <;> simp <;> omega

theorem size_offerAll_le (as : List Attempt) :
    (Ledger.empty.offerAll as).size ≤ as.length := by
  induction as using List.reverseRecOn with
  | nil => exact Nat.le_refl 0
  | append_singleton as a ih =>
    rw [offerAll, List.foldl_append, List.length_append, List.length_singleton]
    show ((Ledger.empty.offerAll as).offer a).size ≤ _
    rcases offer_cases (Ledger.empty.offerAll as) a with ⟨-, -, he⟩ | ⟨-, he⟩ <;> rw [he]
    · rw [size_push]
      exact Nat.succ_le_succ ih
    · exact Nat.le_succ_of_le ih

/-- Every number up to the last is that of a step. -/
theorem WellFormed.exists_at? {n : Nat} (h : l.WellFormed) (hpos : 0 < n) (hlt : n < l.nextSeq) :
    ∃ s, l.at? n = .ok s ∧ s.seq = n := by
  obtain ⟨i, rfl⟩ := Nat.exists_eq_add_of_lt hpos
  have hi : i < l.steps.length := by
    unfold nextSeq size at hlt
    omega
  have hget := List.getElem?_eq_getElem hi
  refine ⟨_, at?_eq_ok.2 ⟨i, by omega, hget⟩, ?_⟩
  rw [h.numbered i _ hget]
  omega

/-! ## Accepted ledgers -/

/-- The confidences of the steps are scores. -/
def Scored (l : Ledger) : Prop := ∀ s ∈ l.steps, Score.IsScore s.confidence

theorem scored_empty : Scored .empty := List.forall_mem_nil _

/-- A new step has its confidence clamped. -/
theorem Scored.push (h : l.Scored) : (l.push kind content why x refs).Scored := fun s hs => by
  rcases mem_steps_push.1 hs with hs | rfl
  · exact h s hs
  · exact Score.isScore_clamp x

/-- A ledger that appends can lead to. -/
structure Accepted (l : Ledger) : Prop where
  wellFormed : l.WellFormed
  scored : l.Scored

namespace Accepted

theorem empty : Accepted .empty := ⟨wellFormed_empty, scored_empty⟩

theorem push (h : l.Accepted) (hrefs : ∀ r ∈ refs, 0 < r ∧ r ≤ l.size) :
    (l.push kind content why x refs).Accepted where
  wellFormed := h.wellFormed.push fun r hr => ⟨(hrefs r hr).1, Nat.lt_succ_of_le (hrefs r hr).2⟩
  scored := h.scored.push

theorem offer (h : l.Accepted) (a : Attempt) : (l.offer a).Accepted := by
  rcases offer_cases l a with ⟨hrefs, -, he⟩ | ⟨-, he⟩ <;> rw [he]
  · exact h.push fun r hr => ⟨(hrefs r hr).1, Nat.le_of_lt_succ (hrefs r hr).2⟩
  · exact h

theorem offerAll (h : l.Accepted) (as : List Attempt) : (l.offerAll as).Accepted :=
  List.foldlRecOn as Ledger.offer (motive := Accepted) h fun _ h a _ => h.offer a

section
variable {steps : List Step} {s : Step}

theorem init (h : Accepted ⟨steps ++ [s]⟩) : Accepted ⟨steps⟩ := by
  refine ⟨⟨fun i t ht => h.wellFormed.numbered i t ?_, fun t ht => ?_⟩, fun t ht => ?_⟩
  · obtain ⟨hlt, -⟩ := List.getElem?_eq_some_iff.1 ht
    exact (List.getElem?_append_left hlt).trans ht
  · exact h.wellFormed.grounded t (List.mem_append_left _ ht)
  · exact h.scored t (List.mem_append_left _ ht)

/-- The last step of an accepted ledger comes of an attempt on the steps before it. -/
theorem attempt?_last (h : Accepted ⟨steps ++ [s]⟩) :
    (Ledger.mk steps).attempt? (.ofStep s) = .ok (steps.length + 1, ⟨steps ++ [s]⟩) := by
  have hs : s ∈ steps ++ [s] := List.mem_append_right _ (List.mem_singleton_self s)
  have hseq : s.seq = steps.length + 1 :=
    h.wellFormed.numbered steps.length s List.getElem?_concat_length
  have hstep : (⟨steps.length + 1, s.kind, s.content, s.justification,
      Score.clamp s.confidence, s.refs⟩ : Step) = s := by
    rw [(h.scored s hs).clamp, ← hseq]
  refine (append?_eq_ok fun r hr => ?_).trans ?_
  · obtain ⟨hpos, hlt⟩ := h.wellFormed.grounded s hs r hr
    rw [hseq] at hlt
    exact ⟨hpos, hlt⟩
  · exact congrArg (fun t => Except.ok (steps.length + 1, Ledger.mk (steps ++ [t]))) hstep

end

/-- The steps of an accepted ledger can be appended one by one, and make it up again. -/
theorem appendAll?_steps (h : l.Accepted) :
    Ledger.empty.appendAll? (l.steps.map .ofStep) = .ok l := by
  obtain ⟨steps⟩ := l
  induction steps using List.reverseRecOn with
  | nil => rfl
  | append_singleton steps s ih =>
    unfold appendAll? at ih ⊢
    rw [List.map_append, List.foldlM_append, ih h.init, List.map_singleton]
    show (((Ledger.mk steps).attempt? (.ofStep s)).map (·.2)).bind Except.ok = _
    rw [h.attempt?_last]
    rfl

end Accepted

/-! ## Steps after steps -/

/-- The ledger is accepted, and has the steps with the numbers up to `n`. -/
structure Reaches (l : Ledger) (n : Nat) : Prop where
  accepted : l.Accepted
  le_size : n ≤ l.size

theorem Accepted.reaches (h : l.Accepted) : l.Reaches l.size := ⟨h, Nat.le_refl _⟩

namespace Reaches

variable {α : Type} {f : Ledger → α → Ledger} {as : List α} {m n : Nat}

theorem mono (h : l.Reaches n) (hle : m ≤ n) : l.Reaches m :=
  ⟨h.accepted, Nat.le_trans hle h.le_size⟩

theorem push (h : l.Reaches n) (hrefs : ∀ r ∈ refs, 0 < r ∧ r ≤ n) :
    (l.push kind content why x refs).Reaches (n + 1) where
  accepted := h.accepted.push fun r hr =>
    ⟨(hrefs r hr).1, Nat.le_trans (hrefs r hr).2 h.le_size⟩
  le_size := by
    rw [size_push]
    exact Nat.succ_le_succ h.le_size

/-- A step that rests on the last one, where there is one. -/
theorem push_last (h : l.Reaches (n + 1)) :
    (l.push kind content why x [l.size]).Reaches (n + 1) where
  accepted := h.accepted.push fun r hr => by
    rw [List.mem_singleton.1 hr]
    exact ⟨Nat.lt_of_lt_of_le (Nat.succ_pos n) h.le_size, Nat.le_refl _⟩
  le_size := by
    rw [size_push]
    exact Nat.le_succ_of_le h.le_size

/-- Each element adds a step, which rests on steps that were there before all of them. -/
theorem foldl_push (refs : α → List Nat) (h : l.Reaches n)
    (hf : ∀ l a, ∃ kind content why x, f l a = l.push kind content why x (refs a))
    (hrefs : ∀ a ∈ as, ∀ r ∈ refs a, 0 < r ∧ r ≤ n) :
    (as.foldl f l).Reaches (n + as.length) := by
  induction as generalizing l n with
  | nil => exact h
  | cons a as ih =>
    obtain ⟨kind, content, why, x, he⟩ := hf l a
    rw [List.foldl_cons, he, List.length_cons, Nat.add_comm as.length, ← Nat.add_assoc]
    refine ih (h.push (hrefs a (List.mem_cons_self ..))) fun b hb r hr => ?_
    obtain ⟨hpos, hle⟩ := hrefs b (List.mem_cons_of_mem a hb) r hr
    exact ⟨hpos, Nat.le_succ_of_le hle⟩

/-- Each element adds such a step or none. -/
theorem foldl (refs : α → List Nat) (h : l.Reaches n)
    (hf : ∀ l a, f l a = l ∨ ∃ kind content why x, f l a = l.push kind content why x (refs a))
    (hrefs : ∀ a ∈ as, ∀ r ∈ refs a, 0 < r ∧ r ≤ n) : (as.foldl f l).Reaches n := by
  refine List.foldlRecOn as f (motive := (Reaches · n)) h fun l h a ha => ?_
  rcases hf l a with he | ⟨kind, content, why, x, he⟩ <;> rw [he]
  · exact h
  · exact (h.push (hrefs a ha)).mono (Nat.le_succ n)

end Reaches

end Ledger

end Reasoning
