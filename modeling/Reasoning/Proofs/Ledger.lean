/-
  Well-formed ledgers.

  * `Ledger.WellFormed`: the steps are numbered from one, and every reference is the number of
    an earlier step;
  * `Ledger.WellFormed.push`: a step with good references keeps a ledger well formed;
  * `Ledger.WellFormed.at?_seq`: in a well-formed ledger a number stands for its step.
-/
import Reasoning.Ledger

namespace Reasoning.Ledger

/-- The steps are numbered in order, and rest on earlier steps only. -/
structure WellFormed (l : Ledger) : Prop where
  numbered : ∀ i s, l.steps[i]? = some s → s.seq = i + 1
  grounded : ∀ s ∈ l.steps, ∀ r ∈ s.refs, 0 < r ∧ r < s.seq

theorem wellFormed_empty : WellFormed .empty where
  numbered i s h := by simp [empty] at h
  grounded s h := by simp [empty] at h

section
variable {l : Ledger} {kind : Step.Kind} {content why : Text} {x : Single} {refs : List Nat}

theorem steps_push : (l.push kind content why x refs).steps =
    l.steps ++ [⟨l.nextSeq, kind, content, why, Score.clamp x, refs⟩] := rfl

theorem mem_steps_push {s : Step} : s ∈ (l.push kind content why x refs).steps ↔
    s ∈ l.steps ∨ s = ⟨l.nextSeq, kind, content, why, Score.clamp x, refs⟩ := by
  rw [steps_push, List.mem_append, List.mem_singleton]

theorem at?_eq_ok {n : Nat} {s : Step} :
    l.at? n = .ok s ↔ ∃ i, n = i + 1 ∧ l.steps[i]? = some s := by
  cases n with
  | zero => simp [at?]
  | succ i =>
    unfold at?
    cases h : l.steps[i]? <;> simp [h]

/-- A step keeps its number. -/
theorem at?_push {n : Nat} {s : Step} (h : l.at? n = .ok s) :
    (l.push kind content why x refs).at? n = .ok s := by
  obtain ⟨i, rfl, hi⟩ := at?_eq_ok.1 h
  obtain ⟨hlt, -⟩ := List.getElem?_eq_some_iff.1 hi
  refine at?_eq_ok.2 ⟨i, rfl, ?_⟩
  rw [steps_push, List.getElem?_append_left hlt, hi]

namespace WellFormed

theorem at?_seq (h : l.WellFormed) {s : Step} (hs : s ∈ l.steps) : l.at? s.seq = .ok s := by
  obtain ⟨i, hi⟩ := List.mem_iff_getElem?.1 hs
  exact at?_eq_ok.2 ⟨i, h.numbered i s hi, hi⟩

theorem seq_bounds (h : l.WellFormed) {s : Step} (hs : s ∈ l.steps) :
    0 < s.seq ∧ s.seq < l.nextSeq := by
  obtain ⟨i, hi⟩ := List.mem_iff_getElem?.1 hs
  obtain ⟨hlt, -⟩ := List.getElem?_eq_some_iff.1 hi
  rw [h.numbered i s hi]
  exact ⟨Nat.succ_pos i, Nat.succ_lt_succ hlt⟩

theorem push (h : l.WellFormed) (hr : ∀ r ∈ refs, 0 < r ∧ r < l.nextSeq) :
    (l.push kind content why x refs).WellFormed where
  numbered i s hi := by
    rw [steps_push, List.getElem?_append] at hi
    split at hi
    · exact h.numbered i s hi
    · rename_i hge
      obtain ⟨hlt, hs⟩ := List.getElem?_eq_some_iff.1 hi
      rw [List.length_singleton] at hlt
      rw [← hs, List.getElem_singleton]
      show l.steps.length + 1 = i + 1
      omega
  grounded s hs := by
    rcases mem_steps_push.1 hs with hs | rfl
    · exact h.grounded s hs
    · exact hr

end WellFormed

end

end Reasoning.Ledger
