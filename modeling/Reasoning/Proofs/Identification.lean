/-
  The ids of quantum states.

  The states of a text are numbered, and so is a state that a context describes without an id.  The
  number counts the states before it and does not look at the ids that the context gives, so it can
  make the id of another state.

  * `QuantumState.textIds`, `QuantumState.assignedIds`, `QuantumState.givenIds`: the ids of states
    of a text, and of states of a context without and with an id of their own;
  * `QuantumState.ids_perm`: these are the ids of all states;
  * `QuantumState.nodup_numbered`: ids that are made of numbers differ;
  * `QuantumState.extract_told_apart_iff`: when all ids do.
-/
import Mathlib.Data.List.Nodup
import Reasoning.Proofs.Text
import Reasoning.Quantum.State

namespace Reasoning.QuantumState

variable {m n : Nat} {input : Text} {context : Json}

theorem idAfter_inj : idAfter m = idAfter n ↔ m = n := by
  rw [idAfter, idAfter, List.cons.injEq, Text.ofNat_inj, and_iff_right rfl,
    Nat.add_right_cancel_iff]

/-! ## States of a text -/

theorem ids_ofLabels (labels : List Text) :
    (ofLabels labels).map (·.id) = (List.range' 0 labels.length).map idAfter := by
  rw [ofLabels, List.map_map, ← List.zipIdx_map_snd 0 labels, List.map_map]
  rfl

theorem ids_ofPhrases (phrases : List (Text × Text)) (count : Nat) :
    (ofPhrases phrases count).map (·.id) = (List.range' count phrases.length).map idAfter := by
  -- Entangled states keep their ids.
  have hentangle (p : QuantumState × Text) (ids : List Text) :
      (if ids.contains p.1.id then { p.1 with entangledWith := ids.filter (· != p.1.id) }
        else p.1).id = p.1.id := by
    split <;> rfl
  unfold ofPhrases
  dsimp only
  rw [List.map_map]
  simp only [Function.comp_def, hentangle]
  rw [List.map_map, ← Nat.add_zero count, ← List.map_add_range', ← List.zipIdx_map_snd 0 phrases,
    List.map_map, List.map_map]
  rfl

@[simp] theorem id_withPhase (x : Single) (s : QuantumState) : (withPhase x s).id = s.id := by
  unfold withPhase
  split <;> rfl

/-- The states that a text names, without their phases. -/
def named (input : Text) : List QuantumState :=
  ofLabels (labels input) ++ ofPhrases (phrases input) (ofLabels (labels input)).length

theorem ids_named (input : Text) :
    (named input).map (·.id) = (List.range' 0 (named input).length).map idAfter := by
  have hlabels := congrArg List.length (ids_ofLabels (labels input))
  have hphrases := congrArg List.length
    (ids_ofPhrases (phrases input) (ofLabels (labels input)).length)
  simp only [List.length_map, List.length_range'] at hlabels hphrases
  rw [named, List.map_append, ids_ofLabels, ids_ofPhrases, ← List.map_append, List.length_append,
    hphrases, ← List.range'_append_1, Nat.zero_add, hlabels]

/-! ## States of a context -/

/-- The entries of a context that describe a state. -/
def entries (context : Json) : List Json :=
  (context.listField "quantumStates").filter Json.isObject

/-- The ids of the states of the text. -/
def textIds (input : Text) : List Text := (extract input .null).map (·.id)

/-- The id that an entry gives to its state. -/
def givenId? (entry : Json) : Option Text := (entry.member? "id").bind Json.text?

/-- The ids that a context gives. -/
def givenIds (context : Json) : List Text := (entries context).filterMap givenId?

/-- The ids of the states of entries, after `count` other states. -/
def entryIds (count : Nat) (es : List Json) : List Text :=
  (es.zipIdx count).map fun p => (givenId? p.1).getD (idAfter p.2)

/-- Those that are numbers of states because the entry gives none. -/
def numberedIds (count : Nat) (es : List Json) : List Text :=
  ((es.zipIdx count).filter fun p => (givenId? p.1).isNone).map fun p => idAfter p.2

/-- The ids of the states that a context describes without one. -/
def assignedIds (input : Text) (context : Json) : List Text :=
  numberedIds (textIds input).length (entries context)

theorem ids_addEntries (ss : List QuantumState) (es : List Json) :
    (addEntries ss es).map (·.id) =
      ss.map (·.id) ++ entryIds ss.length (es.filter Json.isObject) := by
  induction es generalizing ss with
  | nil => exact (List.append_nil _).symm
  | cons e es ih =>
    show (addEntries (ss ++ (ofContextValue? ss.length e).toList) es).map (·.id) = _
    rw [ih, List.filter_cons, ofContextValue?]
    cases he : e.isObject with
    | false => simp
    | true => simp [entryIds, Json.textField, givenId?]

/-- Each state has a number or the id that is given. -/
theorem entryIds_perm (count : Nat) (es : List Json) :
    (entryIds count es).Perm (numberedIds count es ++ es.filterMap givenId?) := by
  induction es generalizing count with
  | nil => exact .refl _
  | cons e es ih =>
    have ih := ih (count + 1)
    unfold entryIds numberedIds at ih ⊢
    rw [List.zipIdx_cons, List.map_cons, List.filter_cons, List.filterMap_cons]
    cases he : givenId? e with
    | none => simpa using ih
    | some id => simpa using (ih.cons id).trans List.perm_middle.symm

/-! ## All states -/

/-- The states of a text come first, and phases do not change ids. -/
theorem ids_extract (input : Text) (context : Json) : (extract input context).map (·.id) =
    (named input).map (·.id) ++ entryIds (named input).length (entries context) := by
  have hphases : (extract input context).map (·.id) =
      (addEntries (named input) (context.listField "quantumStates")).map (·.id) := by
    unfold extract
    dsimp only
    split
    · rfl
    · simp [named]
  rw [hphases, ids_addEntries, entries]

theorem textIds_eq (input : Text) : textIds input = (named input).map (·.id) := by
  rw [textIds, ids_extract]
  exact List.append_nil _

theorem ids_perm (input : Text) (context : Json) :
    ((extract input context).map (·.id)).Perm
      (textIds input ++ assignedIds input context ++ givenIds context) := by
  rw [ids_extract, textIds_eq, List.append_assoc, assignedIds, textIds_eq, List.length_map]
  exact (entryIds_perm ..).append_left _

/-- Ids that are made of numbers differ. -/
theorem nodup_numbered (input : Text) (context : Json) :
    (textIds input ++ assignedIds input context).Nodup := by
  have hassigned : (assignedIds input context).Sublist
      ((List.range' (named input).length (entries context).length).map idAfter) := by
    rw [assignedIds, textIds_eq, List.length_map, ← List.zipIdx_map_snd _ (entries context),
      List.map_map]
    exact List.filter_sublist.map _
  have hrange (k l : Nat) : List.range' 0 k ++ List.range' k l = List.range' 0 (k + l) := by
    rw [← List.range'_append_1, Nat.zero_add]
  rw [textIds_eq, ids_named]
  refine (hassigned.append_left _).nodup ?_
  rw [← List.map_append, hrange]
  exact (List.nodup_range' ..).map fun _ _ => idAfter_inj.1

/-- **When states are told apart.**  No two states of an input and its context have the same id if
    and only if the ids that the context gives are different, none of them is the id of a state of
    the text, and none is one that is assigned to a state without an id. -/
theorem extract_told_apart_iff (input : Text) (context : Json) :
    ((extract input context).map (·.id)).Nodup ↔ (givenIds context).Nodup ∧
      (∀ id ∈ givenIds context, id ∉ textIds input) ∧
      ∀ id ∈ givenIds context, id ∉ assignedIds input context := by
  rw [(ids_perm input context).nodup_iff, List.nodup_append', and_iff_right (nodup_numbered ..),
    List.disjoint_comm, List.disjoint_append_right]
  rfl

/-- A state without an id is given the id of the one before it. -/
theorem extract_assigns_given :
    let context : Json := .ofMembers [("quantumStates",
      .array [.ofMembers [("id", .string "q2")], .ofMembers []])]
    (givenIds context).Nodup ∧ (∀ id ∈ givenIds context, id ∉ textIds []) ∧
      assignedIds [] context = [Text.ofString "q2"] ∧
      ¬ ((extract [] context).map (·.id)).Nodup := by
  decide +kernel

end Reasoning.QuantumState
