/-
  Tables as finite maps.

  * `Dict.get?_ofList`: of the entries with the same key the last one counts;
  * `Dict.Sorted`: a table has its keys in their order, each once, and so its entries are what
    can be looked up;
  * `Dict.length_ofList`: a table has all entries that it is made of if their keys differ;
  * `Dict.Sorted.ext`, `Dict.Sorted.keys_eq`: a table is determined by its entries, and the order
    of its keys by the keys.
-/
import Mathlib.Data.List.Induction
import Mathlib.Data.List.Nodup
import Reasoning.Dict
import Reasoning.Proofs.Order

namespace Reasoning.Dict

variable {ν : Type}

@[simp] theorem get?_insert_self (d : Dict ν) (k : Text) (v : ν) :
    (d.insert k v).get? k = some v := by simp [get?_insert]

theorem get?_insert_ne (d : Dict ν) {k l : Text} (v : ν) (h : l ≠ k) :
    (d.insert k v).get? l = d.get? l := by simp [get?_insert, h]

theorem get?_ofList (entries : List (Text × ν)) (k : Text) :
    (ofList entries).get? k = entries.reverse.lookup k := by
  suffices h : ∀ d : Dict ν, (entries.foldl (fun d e => d.insert e.1 e.2) d).get? k =
      (entries.reverse.lookup k).or (d.get? k) by
    simpa [ofList] using h []
  intro d
  induction entries generalizing d with
  | nil => simp
  | cons e entries ih =>
    obtain ⟨l, v⟩ := e
    rw [List.foldl_cons, ih, get?_insert, List.reverse_cons, List.lookup_append, Option.or_assoc,
      show List.lookup k [(l, v)] = if k = l then some v else none from get?_cons k l v []]
    split <;> simp

theorem get?_ofList_map {α : Type} (key : α → Text) (value : α → ν) (as : List α) (k : Text) :
    (ofList (as.map fun a => (key a, value a))).get? k =
      (as.reverse.find? fun a => key a == k).map value := by
  rw [get?_ofList, ← List.map_reverse]
  induction as.reverse with
  | nil => rfl
  | cons a as ih =>
    rw [List.map_cons, List.lookup_cons, List.find?_cons, ih, BEq.comm (a := k)]
    split <;> simp_all

/-! ## The order of the keys -/

/-- The keys come in their order, each once. -/
def Sorted (d : Dict ν) : Prop := d.Pairwise fun a b => a.1.before b.1

theorem mem_insert {d : Dict ν} {k : Text} {v : ν} {e : Text × ν} (h : e ∈ d.insert k v) :
    e = (k, v) ∨ e ∈ d := by
  induction d with
  | nil => exact .inl (List.mem_singleton.1 h)
  | cons f d ih =>
    unfold insert at h
    grind

theorem keys_insert_subset (d : Dict ν) (k : Text) (v : ν) :
    (d.insert k v).keys ⊆ k :: d.keys := by
  intro l hl
  obtain ⟨e, he, rfl⟩ := List.mem_map.1 hl
  rcases mem_insert he with rfl | he
  · exact List.mem_cons_self ..
  · exact List.mem_cons_of_mem _ (List.mem_map_of_mem he)

theorem mem_of_mem_ofList {entries : List (Text × ν)} {e : Text × ν} (h : e ∈ ofList entries) :
    e ∈ entries := by
  revert h
  refine List.foldlRecOn entries _ (motive := fun d => e ∈ d → e ∈ entries) ?_ ?_
  · exact fun h => nomatch h
  · intro d hd entry hentry h
    rcases mem_insert h with rfl | h
    · exact hentry
    · exact hd h

theorem keys_ofList_subset (entries : List (Text × ν)) :
    (ofList entries).keys ⊆ entries.map (·.1) :=
  List.map_subset _ fun _ he => mem_of_mem_ofList he

theorem sorted_subset (ts : List Text) : sorted ts ⊆ ts := fun t ht => by
  simpa using keys_ofList_subset _ ht

theorem Sorted.insert {d : Dict ν} (h : d.Sorted) (k : Text) (v : ν) : (d.insert k v).Sorted := by
  induction d with
  | nil => exact List.pairwise_singleton ..
  | cons e d ih =>
    obtain ⟨l, w⟩ := e
    obtain ⟨hl, hd⟩ := List.pairwise_cons.1 h
    unfold Dict.insert
    split
    · rename_i hk
      refine List.pairwise_cons.2 ⟨fun e he => ?_, h⟩
      rcases List.mem_cons.1 he with rfl | he
      · exact hk
      · exact Text.before_trans hk (hl e he)
    · rename_i hk
      split
      · rename_i he
        rw [eq_of_beq he]
        exact List.pairwise_cons.2 ⟨hl, hd⟩
      · rename_i hne
        refine List.pairwise_cons.2 ⟨fun e he => ?_, ih hd⟩
        rcases mem_insert he with rfl | he
        · exact Text.before_of_not_before hk fun h => hne (beq_iff_eq.2 h)
        · exact hl e he

theorem sorted_ofList (entries : List (Text × ν)) : (ofList entries).Sorted := by
  suffices h : ∀ d : Dict ν, d.Sorted → (entries.foldl (fun d e => d.insert e.1 e.2) d).Sorted from
    h [] List.Pairwise.nil
  induction entries with
  | nil => exact fun _ h => h
  | cons e entries ih => exact fun d h => ih _ (h.insert e.1 e.2)

theorem Sorted.mem_iff {d : Dict ν} (h : d.Sorted) {k : Text} {v : ν} :
    (k, v) ∈ d ↔ d.get? k = some v := by
  induction d with
  | nil => simp
  | cons e d ih =>
    obtain ⟨l, w⟩ := e
    obtain ⟨hl, hd⟩ := List.pairwise_cons.1 h
    rw [List.mem_cons, Prod.mk.injEq, get?_cons, ih hd]
    by_cases hk : k = l
    · subst hk
      have hnot : get? d k ≠ some v := fun hv => Text.not_before_self k (hl _ ((ih hd).2 hv))
      simp [hnot, eq_comm]
    · simp [hk]

/-! ## Tables with all their entries -/

section
variable {d : Dict ν} {entries : List (Text × ν)} {k : Text} {v : ν}

theorem contains_iff : d.contains k ↔ k ∈ d.keys := by
  unfold contains get? keys
  rw [List.lookup_isSome_iff, List.mem_map]
  constructor
  · rintro ⟨e, he, hk⟩
    exact ⟨e, he, (eq_of_beq hk).symm⟩
  · rintro ⟨e, he, rfl⟩
    exact ⟨e, he, beq_self_eq_true _⟩

theorem Sorted.nodup_keys (h : d.Sorted) : d.keys.Nodup :=
  List.pairwise_map.2 (h.imp fun {a b} hlt (he : a.1 = b.1) => by
    rw [he] at hlt
    exact Text.not_before_self _ hlt)

theorem Sorted.length_insert (h : d.Sorted) (k : Text) (v : ν) :
    (d.insert k v).length = if d.contains k then d.length else d.length + 1 := by
  induction d with
  | nil => rfl
  | cons e d ih =>
    obtain ⟨l, w⟩ := e
    obtain ⟨hl, hd⟩ := List.pairwise_cons.1 h
    unfold Dict.insert
    split
    · rename_i hk
      -- A key that comes before the first one is none of those that come after it.
      rw [if_neg, List.length_cons]
      rw [contains_iff]
      intro hmem
      rcases List.mem_cons.1 hmem with rfl | hmem
      · exact Text.not_before_self _ hk
      · obtain ⟨f, hf, rfl⟩ := List.mem_map.1 hmem
        exact Text.not_before_self _ (Text.before_trans hk (hl f hf))
    · split
      · rename_i he
        rw [if_pos, List.length_cons, List.length_cons]
        rw [contains_iff, eq_of_beq he]
        exact List.mem_cons_self ..
      · rename_i hne
        have hcontains : contains ((l, w) :: d) k = contains d k := by
          unfold contains
          rw [get?_cons, if_neg fun he => hne (beq_iff_eq.2 he)]
        rw [List.length_cons, ih hd, hcontains, List.length_cons]
        split <;> rfl

theorem ofList_concat (entries : List (Text × ν)) (e : Text × ν) :
    ofList (entries ++ [e]) = (ofList entries).insert e.1 e.2 := List.foldl_append

theorem mem_keys_ofList : k ∈ (ofList entries).keys ↔ k ∈ entries.map (·.1) := by
  refine ⟨fun h => keys_ofList_subset entries h, fun h => ?_⟩
  rw [← contains_iff, contains, get?_ofList, List.lookup_isSome_iff]
  obtain ⟨e, he, rfl⟩ := List.mem_map.1 h
  exact ⟨e, List.mem_reverse.2 he, beq_self_eq_true _⟩

/-- A table has at most the entries it is made of, and all of them if their keys differ. -/
theorem length_ofList (entries : List (Text × ν)) :
    (ofList entries).length ≤ entries.length ∧
      ((ofList entries).length = entries.length ↔ (entries.map (·.1)).Nodup) := by
  induction entries using List.reverseRecOn with
  | nil => exact ⟨Nat.le_refl _, iff_of_true rfl List.nodup_nil⟩
  | append_singleton entries e ih =>
    obtain ⟨hle, hiff⟩ := ih
    rw [ofList_concat, (sorted_ofList entries).length_insert, List.length_append,
      List.length_singleton, List.map_append, List.map_singleton, ← List.concat_eq_append,
      List.nodup_concat, ← hiff, ← mem_keys_ofList, ← contains_iff]
    by_cases hk : contains (ofList entries) e.1
    · rw [if_pos hk]
      exact ⟨by omega, iff_of_false (by omega) fun h => h.1 hk⟩
    · rw [if_neg hk, Nat.add_right_cancel_iff]
      exact ⟨by omega, (and_iff_right hk).symm⟩

/-- Of entries whose keys differ each one can be looked up. -/
theorem get?_ofList_of_nodup (h : (entries.map (·.1)).Nodup) (he : (k, v) ∈ entries) :
    (ofList entries).get? k = some v := by
  induction entries using List.reverseRecOn with
  | nil => cases he
  | append_singleton entries e ih =>
    rw [List.map_append, List.map_singleton, ← List.concat_eq_append, List.nodup_concat] at h
    rw [ofList_concat]
    rcases List.mem_append.1 he with he | he
    · rw [get?_insert_ne, ih h.2 he]
      rintro rfl
      exact h.1 (List.mem_map.2 ⟨_, he, rfl⟩)
    · rw [← List.mem_singleton.1 he]
      exact get?_insert_self ..

end

/-! ## Tables of the same entries -/

section
variable {μ : Type} {d d' : Dict ν} {entries : List (Text × ν)} {ts us : List Text} {t : Text}

theorem Sorted.pairwise_keys (h : d.Sorted) : d.keys.Pairwise fun k l => k.before l :=
  List.pairwise_map.2 h

/-- Tables whose keys are the same have them in the same order. -/
theorem Sorted.keys_eq {e : Dict μ} (hd : d.Sorted) (he : e.Sorted)
    (h : ∀ k, k ∈ d.keys ↔ k ∈ e.keys) : d.keys = e.keys := by
  have hperm := (List.perm_ext_iff_of_nodup hd.nodup_keys he.nodup_keys).2 h
  exact hperm.eq_of_pairwise (fun k l _ _ hkl hlk =>
    absurd (Text.before_trans hkl hlk) (Text.not_before_self k)) hd.pairwise_keys he.pairwise_keys

/-- Tables of the same entries are the same. -/
theorem Sorted.ext (hd : d.Sorted) (hd' : d'.Sorted) (h : ∀ e, e ∈ d ↔ e ∈ d') : d = d' := by
  have hperm := (List.perm_ext_iff_of_nodup hd.nodup_keys.of_map hd'.nodup_keys.of_map).2 h
  exact hperm.eq_of_pairwise (fun e f _ _ hef hfe =>
    absurd (Text.before_trans hef hfe) (Text.not_before_self e.1)) hd hd'

/-- A table has the entries that it is made of if their keys differ. -/
theorem mem_ofList (h : (entries.map (·.1)).Nodup) {e : Text × ν} :
    e ∈ ofList entries ↔ e ∈ entries :=
  ⟨mem_of_mem_ofList, fun he => (sorted_ofList entries).mem_iff.2 (get?_ofList_of_nodup h he)⟩

@[simp] theorem mem_sorted : t ∈ sorted ts ↔ t ∈ ts := by
  unfold sorted
  rw [mem_keys_ofList, List.map_map]
  simp

theorem pairwise_sorted (ts : List Text) : (sorted ts).Pairwise fun t u => t.before u :=
  (sorted_ofList _).pairwise_keys

theorem sorted_congr (h : ∀ t, t ∈ ts ↔ t ∈ us) : sorted ts = sorted us :=
  (sorted_ofList _).keys_eq (sorted_ofList _) fun t =>
    mem_sorted.trans ((h t).trans mem_sorted.symm)

end

end Reasoning.Dict
