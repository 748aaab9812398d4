/-
  The world graph of a modal call.

  The actual world comes first, then the registered worlds as they are, then one world for each
  operator of necessity or possibility, under an id that no world before it has.

  * `World.Searches`, `World.searches_iff`: counting up to a number whose id is free comes to an
    end, whatever ids the worlds have;
  * `World.Opens`, `World.exists_addOpened`: the worlds that operators open one by one;
  * `World.Opens.forall₂`, `World.Opens.nodup`: one for each operator, and no id twice;
  * `Modal.Detects`: an input with premises and operators;
  * `Modal.reason_worlds`: the worlds of an answer.
-/
import Mathlib.Data.List.Nodup
import Mathlib.Data.List.Perm.Subperm
import Reasoning.Modal.Reason
import Reasoning.Proofs.Consistency
import Reasoning.Proofs.Text

namespace Reasoning

/-! ## Names with numbers -/

namespace World

theorem idOf_inj {m n : Nat} : idOf m = idOf n ↔ m = n := by
  rw [idOf, idOf, List.cons.injEq, Text.ofNat_inj, and_iff_right rfl]

theorem propositionOf_inj {m n : Nat} : propositionOf m = propositionOf n ↔ m = n := by
  rw [propositionOf, propositionOf, List.cons.injEq, Text.ofNat_inj, and_iff_right rfl,
    Nat.add_right_cancel_iff]

/-! ## The search for a free number -/

/-- A world has the id of the number. -/
def Taken (ws : List World) (n : Nat) : Prop := ∃ w ∈ ws, w.id = idOf n

/-- Counting up from a number, past those that are taken, ends at a free one. -/
inductive Searches (ws : List World) : Nat → Nat → Prop
  | found {n : Nat} : ¬ Taken ws n → Searches ws n n
  | next {n k : Nat} : Taken ws n → Searches ws (n + 1) k → Searches ws n k

variable {ws : List World} {n k : Nat}

theorem Searches.free (h : Searches ws n k) : ¬ Taken ws k := by
  induction h with
  | found hfree => exact hfree
  | next _ _ ih => exact ih

theorem Searches.unique {l : Nat} (h : Searches ws n k) (h' : Searches ws n l) : k = l := by
  induction h with
  | found hfree =>
    cases h' with
    | found => rfl
    | next htaken => exact absurd htaken hfree
  | next htaken _ ih =>
    cases h' with
    | found hfree => exact absurd htaken hfree
    | next _ hrest => exact ih hrest

theorem any_id_iff : (ws.any fun w => w.id == idOf n) ↔ Taken ws n := by
  simp only [List.any_eq_true, beq_iff_eq, Taken]

/-- The first free number of a range is where the search ends. -/
theorem searches_of_find? {m : Nat}
    (h : (List.range' n m).find? (fun i => !ws.any fun w => w.id == idOf i) = some k) :
    Searches ws n k := by
  induction m generalizing n with
  | zero => cases h
  | succ m ih =>
    rw [List.range'_succ, List.find?_cons] at h
    by_cases htaken : Taken ws n
    · rw [any_id_iff.2 htaken] at h
      exact .next htaken (ih h)
    · rw [Bool.eq_false_iff.2 (any_id_iff.not.2 htaken)] at h
      obtain rfl := Option.some.inj h
      exact .found htaken

/-- Worlds have ids of so many numbers at most as there are worlds. -/
theorem exists_free (ws : List World) (n : Nat) :
    ∃ i ∈ List.range' n (ws.length + 1), ¬ Taken ws i := by
  by_contra hall
  have hids : (List.range' n (ws.length + 1)).map idOf ⊆ ws.map (·.id) := by
    intro id hid
    obtain ⟨i, hi, rfl⟩ := List.mem_map.1 hid
    obtain ⟨w, hw, he⟩ : Taken ws i := by_contra fun hfree => hall ⟨i, hi, hfree⟩
    exact List.mem_map.2 ⟨w, hw, he⟩
  have hnodup : ((List.range' n (ws.length + 1)).map idOf).Nodup :=
    List.Nodup.map (fun _ _ => idOf_inj.1) (List.nodup_range' ..)
  have := (List.Nodup.subperm hnodup hids).length_le
  rw [List.length_map, List.length_range', List.length_map] at this
  omega

theorem freshNumber_spec (ws : List World) (n : Nat) :
    Searches ws n (freshNumber ws n) ∧ freshNumber ws n ≤ n + ws.length := by
  obtain ⟨i, hi, hfree⟩ := exists_free ws n
  have hsome : ((List.range' n (ws.length + 1)).find?
      fun i => !ws.any fun w => w.id == idOf i).isSome := by
    rw [List.find?_isSome]
    exact ⟨i, hi, by rw [Bool.eq_false_iff.2 (any_id_iff.not.2 hfree)]; rfl⟩
  obtain ⟨k, hk⟩ := Option.isSome_iff_exists.1 hsome
  have hnumber : freshNumber ws n = k := by
    rw [freshNumber, hk, Option.getD_some]
  rw [hnumber]
  refine ⟨searches_of_find? hk, ?_⟩
  have := List.mem_range'_1.1 (List.mem_of_find?_eq_some hk)
  omega

/-- The search for a free number ends. -/
theorem searches_freshNumber (ws : List World) (n : Nat) : Searches ws n (freshNumber ws n) :=
  (freshNumber_spec ws n).1

/-- It ends after as many steps at most as there are worlds. -/
theorem freshNumber_le (ws : List World) (n : Nat) : freshNumber ws n ≤ n + ws.length :=
  (freshNumber_spec ws n).2

theorem searches_iff : Searches ws n k ↔ k = freshNumber ws n :=
  ⟨fun h => h.unique (searches_freshNumber ws n), fun h => h ▸ searches_freshNumber ws n⟩

/-! ## Opened worlds -/

/-- Whether an operator opens a world. -/
def isOpening (d : Detection) : Bool :=
  d.operator.name == Text.ofString "possibility" || d.operator.name == Text.ofString "necessity"

/-- Behind some worlds, the operators open others one by one, each under the first free number
    from the one behind the last opened world on. -/
inductive Opens (c : Config) (actual : World) :
    List World → Nat → List Detection → List World → Prop
  | done {ws : List World} {n : Nat} : Opens c actual ws n [] []
  | skip {ws vs : List World} {n : Nat} {d : Detection} {ds : List Detection} :
      isOpening d = false → Opens c actual ws n ds vs → Opens c actual ws n (d :: ds) vs
  | next {ws vs : List World} {n k : Nat} {w : World} {d : Detection} {ds : List Detection} :
      Searches ws n k → opened? c actual d (idOf k) = some w →
      Opens c actual (ws ++ [w]) (k + 1) ds vs → Opens c actual ws n (d :: ds) (w :: vs)

variable {c : Config} {actual w : World} {vs : List World} {d : Detection} {ds : List Detection}
  {id : Text}

theorem opened?_eq_none : opened? c actual d id = none ↔ isOpening d = false := by
  unfold opened? isOpening
  split
  · simp_all
  · split <;> simp_all

theorem isOpening_of_opened? (h : opened? c actual d id = some w) : isOpening d = true := by
  by_contra hclosed
  rw [opened?_eq_none.2 (Bool.not_eq_true _ ▸ hclosed)] at h
  cases h

/-- What an operator opens is reached from the actual world, and says what that one says, except
    that a possibility turns its premise. -/
theorem opened?_cases (h : opened? c actual d id = some w) :
    w.id = id ∧ w.accessibleFrom = [actualId] ∧
      (d.operator.name = Text.ofString "possibility" ∧
          w.propositions = actual.propositions.insert (propositionOf d.premise)
            (!(actual.propositions.get? (propositionOf d.premise)).getD false) ∨
        d.operator.name = Text.ofString "necessity" ∧ w.propositions = actual.propositions) := by
  unfold opened? at h
  split at h
  · rename_i hname
    cases h
    exact ⟨rfl, rfl, .inl ⟨beq_iff_eq.1 hname, rfl⟩⟩
  · split at h <;> cases h
    rename_i hname
    exact ⟨rfl, rfl, .inr ⟨beq_iff_eq.1 hname, rfl⟩⟩

theorem id_of_opened? (h : opened? c actual d id = some w) : w.id = id :=
  (opened?_cases h).1

/-- The worlds that are added are those that the operators open. -/
theorem exists_addOpened (c : Config) (actual : World) (ds : List Detection) (n : Nat)
    (ws : List World) :
    ∃ vs, addOpened c actual ds n ws = ws ++ vs ∧ Opens c actual ws n ds vs := by
  induction ds generalizing n ws with
  | nil => exact ⟨[], (List.append_nil ws).symm, .done⟩
  | cons d ds ih =>
    unfold addOpened
    dsimp only
    cases h : opened? c actual d (idOf (freshNumber ws n)) with
    | none =>
      obtain ⟨vs, hadd, hopens⟩ := ih n ws
      exact ⟨vs, hadd, .skip (opened?_eq_none.1 h) hopens⟩
    | some w =>
      obtain ⟨vs, hadd, hopens⟩ := ih (freshNumber ws n + 1) (ws ++ [w])
      rw [List.append_assoc, List.singleton_append] at hadd
      exact ⟨w :: vs, hadd, .next (searches_freshNumber ws n) h hopens⟩

namespace Opens

/-- One world is opened for each operator of necessity or possibility, in their order. -/
theorem forall₂ (h : Opens c actual ws n ds vs) :
    List.Forall₂ (fun d w => opened? c actual d w.id = some w) (ds.filter isOpening) vs := by
  induction h with
  | done => exact .nil
  | skip hd _ ih =>
    rw [List.filter_cons_of_neg (by rw [hd]; exact nofun)]
    exact ih
  | next _ hw _ ih =>
    rw [List.filter_cons_of_pos (isOpening_of_opened? hw)]
    exact .cons (id_of_opened? hw ▸ hw) ih

/-- An opened world comes of an operator. -/
theorem exists_opened (h : Opens c actual ws n ds vs) (hw : w ∈ vs) :
    ∃ d ∈ ds, opened? c actual d w.id = some w := by
  induction h with
  | done => cases hw
  | skip _ _ ih =>
    obtain ⟨d, hd, hopened⟩ := ih hw
    exact ⟨d, List.mem_cons_of_mem _ hd, hopened⟩
  | next _ hfirst _ ih =>
    rcases List.mem_cons.1 hw with rfl | hw
    · exact ⟨_, List.mem_cons_self .., id_of_opened? hfirst ▸ hfirst⟩
    · obtain ⟨d, hd, hopened⟩ := ih hw
      exact ⟨d, List.mem_cons_of_mem _ hd, hopened⟩

/-- Each operator of necessity or possibility opens a world. -/
theorem exists_mem (h : Opens c actual ws n ds vs) (hd : d ∈ ds) (hopening : isOpening d = true) :
    ∃ w ∈ vs, opened? c actual d w.id = some w := by
  induction h with
  | done => cases hd
  | skip hfirst _ ih =>
    rcases List.mem_cons.1 hd with rfl | hd
    · rw [hopening] at hfirst
      cases hfirst
    · exact ih hd
  | next _ hfirst _ ih =>
    rcases List.mem_cons.1 hd with rfl | hd
    · exact ⟨_, List.mem_cons_self .., id_of_opened? hfirst ▸ hfirst⟩
    · obtain ⟨w, hw, hopened⟩ := ih hd
      exact ⟨w, List.mem_cons_of_mem _ hw, hopened⟩

/-- An opened world does not take the id of one that is there. -/
theorem nodup (h : Opens c actual ws n ds vs) (hws : (ws.map (·.id)).Nodup) :
    ((ws ++ vs).map (·.id)).Nodup := by
  induction h with
  | done => rwa [List.append_nil]
  | skip _ _ ih => exact ih hws
  | @next ws vs _ _ w _ _ hsearch hw _ ih =>
    rw [← List.singleton_append, ← List.append_assoc]
    apply ih
    rw [List.map_append, List.map_singleton, ← List.concat_eq_append, List.nodup_concat]
    refine ⟨fun hmem => ?_, hws⟩
    obtain ⟨v, hv, hid⟩ := List.mem_map.1 hmem
    exact hsearch.free ⟨v, hv, hid.trans (id_of_opened? hw)⟩

end Opens

/-- The worlds of a call are the actual world, the registered ones, and those that are opened. -/
theorem exists_build (c : Config) (registered : List World) (ps : List Proposition)
    (ds : List Detection) :
    ∃ opened, build c registered ps ds = World.actual ps :: registered ++ opened ∧
      Opens c (World.actual ps) (World.actual ps :: registered)
        (World.actual ps :: registered).length ds opened :=
  exists_addOpened ..

/-- The actual world and the registered worlds have different ids. -/
theorem nodup_registered {r : Registry} (h : r.Consistent) (ps : List Proposition) :
    ((World.actual ps :: r.worlds.items).map (·.id)).Nodup := by
  have hkeys : r.worlds.items.map (·.id) = r.worlds.keys := h.worlds.map_key_items
  rw [List.map_cons, hkeys, List.nodup_cons]
  refine ⟨fun hmem => ?_, h.worlds.distinct⟩
  rw [← hkeys] at hmem
  obtain ⟨w, hw, hid⟩ := List.mem_map.1 hmem
  exact (h.worlds.good w hw).id hid

end World

/-! ## The worlds of an answer -/

namespace Modal

/-- The premises of a call, and the operators that are detected on them. -/
structure Detects (r : Registry) (input : Text) (context : Json) (ps : List Proposition)
    (ds : List Detection) : Prop where
  premises : (Extraction.extract input context).premises = ps
  detections : Detection.detect input r.modalOperators.items ps = ds
  premises_ne : ps ≠ []
  detections_ne : ds ≠ []

variable {r : Registry} {input : Text} {context : Json} {ps : List Proposition}
  {ds : List Detection}

theorem Detects.reason_eq (h : Detects r input context ps ds) (c : Config) (m : Metrics) :
    (reason r c m input context).1 = answer r c input ps ds := by
  obtain ⟨rfl, rfl, hps, hds⟩ := h
  unfold reason
  dsimp only
  rw [if_neg (List.isEmpty_iff.not.2 hps), if_neg (List.isEmpty_iff.not.2 hds)]

/-- **The worlds of an answer.**  The actual world comes first, the registered worlds follow as
    they are, and behind them come those that the operators open, one for each necessity and
    possibility.  No id comes twice: an opened world takes the first number that is free, and the
    search for it ends after as many steps at most as there are worlds, whatever their ids are. -/
theorem reason_worlds (hr : r.Reachable) (h : Detects r input context ps ds) (c : Config)
    (m : Metrics) :
    (∃ opened,
      let there := World.actual ps :: r.worlds.items
      let details := (reason r c m input context).1.details
      details.member? "worlds" = some (.array ((there ++ opened).map World.toJson)) ∧
      details.member? "world_count" = some (.ofNat (there ++ opened).length) ∧
      World.Opens c (World.actual ps) there there.length ds opened ∧
      List.Forall₂ (fun d w => World.opened? c (World.actual ps) d w.id = some w)
        (ds.filter World.isOpening) opened ∧
      ((there ++ opened).map (·.id)).Nodup) ∧
    ∀ ws n, (∀ k, World.Searches ws n k ↔ k = World.freshNumber ws n) ∧
      World.freshNumber ws n ≤ n + ws.length := by
  refine ⟨?_, fun ws n => ⟨fun k => World.searches_iff, World.freshNumber_le ws n⟩⟩
  obtain ⟨opened, hbuild, hopens⟩ := World.exists_build c r.worlds.items ps ds
  refine ⟨opened, ?_, ?_, hopens, hopens.forall₂,
    hopens.nodup (World.nodup_registered hr.consistent ps)⟩ <;>
  · rw [h.reason_eq, ← hbuild]
    rfl

/-- A necessity where `w2` is taken already. -/
theorem reason_worlds_must :
    let taken : World := ⟨"w2", "Registered", ["w0"], [], []⟩
    let r := Registry.seeded.offer (.world taken)
    let input := Text.ofString "The system must halt."
    let ps := (Extraction.extract input (.object [])).premises
    let ds := Detection.detect input r.modalOperators.items ps
    let worlds := World.build {} r.worlds.items ps ds
    r.Reachable ∧ Detects r input (.object []) ps ds ∧
      worlds.map (·.id) = ["w0", "w2", "w3"].map Text.ofString ∧
      ∃ opened, World.Opens {} (World.actual ps) [World.actual ps, taken] 2 ds opened ∧
        (reason r {} .empty input (.object [])).1.details.member? "worlds" =
          some (.array (([World.actual ps, taken] ++ opened).map World.toJson)) := by
  intro taken r input ps ds worlds
  have hr : r.Reachable := Registry.reachable_seeded.offer _
  have hdetects : Detects r input (.object []) ps ds :=
    ⟨rfl, rfl, by decide +kernel, by decide +kernel⟩
  have hregistered : r.worlds.items = [taken] := by decide +kernel
  obtain ⟨opened, hworlds, -, hopens, -⟩ := (reason_worlds hr hdetects {} .empty).1
  rw [hregistered] at hworlds hopens
  exact ⟨hr, hdetects, by decide +kernel, opened, hopens, hworlds⟩

end Modal

end Reasoning
