/-
  Catalogues as maps in insertion order.

  The list and the index of a catalogue say the same: a key stands in the list of keys where the
  index has its record, and nowhere else.

  * `Catalogue.getElem?_keys`, `Catalogue.nodup_keys`: the keys as the index has them;
  * `Catalogue.find?_eq_some_iff_mem`, `Catalogue.map_some_items`: what is looked up is what stands
    in the list;
  * `Catalogue.upsert_cases`: what an upsert does, `Catalogue.keys_upsert`,
    `Catalogue.find?_upsert`, `Catalogue.entries_upsert`: what follows for keys and records;
  * `Catalogue.ofUpserts`: what a sequence of upserts makes of the empty catalogue,
    `Catalogue.ofUpserts_inserts`: each key stands where it came first, with its last record.
-/
import Mathlib.Data.Finset.Card
import Mathlib.Data.List.Induction
import Reasoning.Catalogue
import Reasoning.Proofs.Dict

namespace Reasoning.Catalogue

variable {α : Type} {c : Catalogue α} {k l : Text} {a : α} {e : Text × α} {i : Nat}
  {us : List (Text × α)}

/-! ## Places -/

theorem keyAt_eq_iff (hi : i < c.size) : c.keyAt i = k ↔ c.index.get? k = some i := by
  have hkey : c.index.get? (c.keyAt i) = some i := by
    obtain ⟨l, hl⟩ := c.numbers.onto hi
    have hmem : l ∈ c.index.keys := Dict.contains_iff.1 (by rw [Dict.contains, hl, Option.isSome])
    unfold keyAt
    cases hfind : c.index.keys.find? fun k => c.index.get? k == some i with
    | none => exact absurd (beq_iff_eq.2 hl) (List.find?_eq_none.1 hfind l hmem)
    | some k => exact beq_iff_eq.1 (List.find?_some (p := fun k => c.index.get? k == some i) hfind)
  exact ⟨fun h => h ▸ hkey, fun h => c.numbers.inj hkey h⟩

/-- A key stands at the place that the index has for it. -/
theorem getElem?_keys : c.keys[i]? = some k ↔ c.index.get? k = some i := by
  rw [keys, List.getElem?_map, Option.map_eq_some_iff]
  constructor
  · rintro ⟨j, hj, hk⟩
    obtain ⟨hlt, rfl⟩ := List.getElem?_eq_some_iff.1 hj
    rw [List.length_range] at hlt
    rw [List.getElem_range] at hk
    exact (keyAt_eq_iff hlt).1 hk
  · intro hk
    have hlt : i < c.size := c.numbers.lt hk
    exact ⟨i, List.getElem?_range hlt, (keyAt_eq_iff hlt).2 hk⟩

theorem length_keys (c : Catalogue α) : c.keys.length = c.size := by
  rw [keys, List.length_map, List.length_range]

theorem nodup_keys (c : Catalogue α) : c.keys.Nodup := by
  refine List.Nodup.map_on (fun i hi j hj h => ?_) List.nodup_range
  have hplace := (keyAt_eq_iff (List.mem_range.1 hi)).1 h
  exact Option.some.inj (hplace.symm.trans ((keyAt_eq_iff (List.mem_range.1 hj)).1 rfl))

theorem contains_iff : c.contains k ↔ k ∈ c.keys := by
  rw [contains, Dict.contains, Option.isSome_iff_exists, List.mem_iff_getElem?]
  simp only [getElem?_keys]

/-! ## Records -/

theorem map_fst_entries (c : Catalogue α) : c.entries.map (·.1) = c.keys :=
  List.map_fst_zip (Nat.le_of_eq c.length_keys)

theorem map_snd_entries (c : Catalogue α) : c.entries.map (·.2) = c.items :=
  List.map_snd_zip (Nat.le_of_eq c.length_keys.symm)

theorem find?_eq_bind (c : Catalogue α) (k : Text) :
    c.find? k = (c.index.get? k).bind fun i => c.items[i]? := by
  unfold find?
  split
  · rename_i i hi
    simp only [hi, Option.bind_some, List.get_eq_getElem]
    exact (List.getElem?_eq_getElem _).symm
  · rename_i hnone
    rw [hnone, Option.bind_none]

theorem getElem?_entries :
    c.entries[i]? = some (k, a) ↔ c.keys[i]? = some k ∧ c.find? k = some a := by
  rw [entries, List.getElem?_zip_eq_some, find?_eq_bind, Option.bind_eq_some_iff, getElem?_keys]
  refine and_congr_right fun hi => ⟨fun ha => ⟨i, hi, ha⟩, ?_⟩
  rintro ⟨j, hj, ha⟩
  cases hi.symm.trans hj
  exact ha

/-- What is looked up is the record that stands under the key. -/
theorem find?_eq_some_iff_mem : c.find? k = some a ↔ (k, a) ∈ c.entries := by
  rw [List.mem_iff_getElem?]
  simp only [getElem?_entries]
  refine ⟨fun ha => ?_, fun ⟨i, _, ha⟩ => ha⟩
  obtain ⟨i, hi, -⟩ := Option.bind_eq_some_iff.1 (c.find?_eq_bind k ▸ ha)
  exact ⟨i, getElem?_keys.2 hi, ha⟩

theorem mem_items : a ∈ c.items ↔ ∃ k, (k, a) ∈ c.entries := by
  rw [← c.map_snd_entries, List.mem_map]
  exact ⟨fun ⟨e, he, hea⟩ => ⟨e.1, hea ▸ he⟩, fun ⟨k, he⟩ => ⟨_, he, rfl⟩⟩

theorem mem_items_of_find? (h : c.find? k = some a) : a ∈ c.items :=
  mem_items.2 ⟨k, find?_eq_some_iff_mem.1 h⟩

/-- The records are those of the keys, in the order of the keys. -/
theorem map_some_items (c : Catalogue α) : c.items.map some = c.keys.map c.find? := by
  rw [← c.map_snd_entries, ← c.map_fst_entries, List.map_map, List.map_map]
  exact List.map_congr_left fun e he => (find?_eq_some_iff_mem.2 he).symm

theorem entries_eq_filterMap (c : Catalogue α) :
    c.entries = c.keys.filterMap fun k => (c.find? k).map fun a => (k, a) := by
  rw [← c.map_fst_entries, List.filterMap_map]
  refine List.filterMap_some.symm.trans (List.filterMap_congr fun e he => ?_)
  rw [Function.comp_apply, find?_eq_some_iff_mem.2 he, Option.map_some]

theorem find?_eq_none_iff : c.find? k = none ↔ k ∉ c.keys := by
  rw [← c.map_fst_entries, Option.eq_none_iff_forall_ne_some]
  simp only [ne_eq, find?_eq_some_iff_mem, List.mem_map, Prod.exists, exists_and_right,
    exists_eq_right, not_exists]

theorem isSome_find? : (c.find? k).isSome = c.contains k := by
  rw [Bool.eq_iff_iff, contains_iff, ← not_iff_not, ← find?_eq_none_iff,
    Option.not_isSome_iff_eq_none]

/-! ## What an upsert does -/

/-- An upsert overwrites the record of a known key, and adds a place for a new one. -/
theorem upsert_cases (c : Catalogue α) (k : Text) (a : α) :
    (∃ i, c.index.get? k = some i ∧ (c.containsThenUpsert k a).1 = true ∧
      (c.upsert k a).index = c.index ∧ (c.upsert k a).items = c.items.set i a) ∨
    (c.index.get? k = none ∧ (c.containsThenUpsert k a).1 = false ∧
      (c.upsert k a).index = c.index.insert k c.size ∧ (c.upsert k a).items = c.items ++ [a]) := by
  unfold upsert containsThenUpsert
  split
  · exact .inl ⟨_, ‹_›, rfl, rfl, rfl⟩
  · exact .inr ⟨‹_›, rfl, rfl, rfl⟩

/-- What an upsert tells is whether the key was there. -/
theorem containsThenUpsert_eq (c : Catalogue α) (k : Text) (a : α) :
    c.containsThenUpsert k a = (c.contains k, c.upsert k a) := by
  refine Prod.ext ?_ rfl
  unfold contains Dict.contains
  rcases upsert_cases c k a with ⟨i, hi, htold, -⟩ | ⟨hnone, htold, -⟩
  · rw [htold, hi, Option.isSome_some]
  · rw [htold, hnone, Option.isSome_none]

theorem keys_upsert (c : Catalogue α) (k : Text) (a : α) :
    (c.upsert k a).keys = if c.contains k then c.keys else c.keys ++ [k] := by
  unfold contains Dict.contains
  rcases upsert_cases c k a with ⟨i, hi, -, hindex, hitems⟩ | ⟨hnone, -, hindex, hitems⟩
  · rw [hi, Option.isSome_some, if_pos rfl]
    unfold keys keyAt size
    rw [hindex, hitems, List.length_set]
  · have hsize : (c.upsert k a).size = c.size + 1 := by
      rw [size, hitems, List.length_append, List.length_singleton, size]
    have hlast : (c.upsert k a).keyAt c.size = k :=
      (keyAt_eq_iff (by omega)).2 (by rw [hindex, Dict.get?_insert, if_pos rfl])
    have hbefore : ∀ i ∈ List.range c.size, (c.upsert k a).keyAt i = c.keyAt i := by
      intro i hi
      have hlt := List.mem_range.1 hi
      have hplace := (keyAt_eq_iff hlt).1 rfl
      have hne : c.keyAt i ≠ k := fun he => nomatch (he ▸ hplace).symm.trans hnone
      exact (keyAt_eq_iff (by omega)).2 (by rw [hindex, Dict.get?_insert, if_neg hne, hplace])
    rw [hnone, Option.isSome_none, if_neg Bool.false_ne_true, keys, hsize, List.range_succ,
      List.map_append, List.map_singleton, hlast, List.map_congr_left hbefore, keys]

theorem mem_keys_upsert : l ∈ (c.upsert k a).keys ↔ l ∈ c.keys ∨ l = k := by
  rw [keys_upsert]
  split
  · rename_i hknown
    rw [contains_iff] at hknown
    exact (or_iff_left_of_imp fun h => h ▸ hknown).symm
  · rw [List.mem_append, List.mem_singleton]

/-- An upsert changes the record of its key alone. -/
theorem find?_upsert (c : Catalogue α) (k l : Text) (a : α) :
    (c.upsert k a).find? l = if l = k then some a else c.find? l := by
  rw [find?_eq_bind, find?_eq_bind]
  rcases upsert_cases c k a with ⟨i, hi, -, hindex, hitems⟩ | ⟨hnone, -, hindex, hitems⟩
  · have hlt := c.numbers.lt hi
    rw [hindex, hitems]
    split
    · rename_i hl
      rw [hl, hi, Option.bind_some, List.getElem?_set_self hlt]
    · rename_i hl
      -- No other key has the place that is overwritten.
      refine Option.bind_congr fun j hj => List.getElem?_set_ne ?_
      rintro rfl
      exact hl (c.numbers.inj hj hi)
  · rw [hindex, hitems, Dict.get?_insert]
    split
    · rw [Option.bind_some]
      exact List.getElem?_concat_length
    · exact Option.bind_congr fun j hj => List.getElem?_append_left (c.numbers.lt hj)

/-- An upsert puts the record where the older one of its key is, or at the end. -/
theorem entries_upsert (c : Catalogue α) (k : Text) (a : α) :
    (c.upsert k a).entries =
      if c.contains k then c.entries.map fun e => if e.1 = k then (k, a) else e
      else c.entries ++ [(k, a)] := by
  rw [entries_eq_filterMap, entries_eq_filterMap, keys_upsert]
  simp only [find?_upsert]
  split
  · rename_i hknown
    rw [List.map_filterMap]
    refine List.filterMap_congr fun l _ => ?_
    by_cases hl : l = k
    · obtain ⟨b, hb⟩ := Option.isSome_iff_exists.1 (isSome_find?.trans hknown)
      rw [if_pos hl, hl, hb]
      simp only [Option.map_some, if_pos]
    · rw [if_neg hl]
      cases c.find? l <;> simp [hl]
  · rename_i hnew
    rw [contains_iff] at hnew
    rw [List.filterMap_append]
    congr 1
    · refine List.filterMap_congr fun l hl => ?_
      rw [if_neg fun he : l = k => hnew (he ▸ hl)]
    · simp

/-- A record is put in, or was there. -/
theorem mem_upsert (h : e ∈ (c.upsert k a).entries) : e ∈ c.entries ∨ e = (k, a) := by
  obtain ⟨l, b⟩ := e
  rw [← find?_eq_some_iff_mem, find?_upsert] at h
  split at h
  · cases h
    exact .inr (Prod.ext ‹_› rfl)
  · exact .inl (find?_eq_some_iff_mem.1 h)

/-! ## Sequences of upserts -/

/-- What a sequence of upserts makes of the empty catalogue. -/
def ofUpserts (us : List (Text × α)) : Catalogue α :=
  us.foldl (fun c u => c.upsert u.1 u.2) .empty

theorem ofUpserts_concat (us : List (Text × α)) (u : Text × α) :
    ofUpserts (us ++ [u]) = (ofUpserts us).upsert u.1 u.2 := List.foldl_append

theorem mem_keys_ofUpserts : k ∈ (ofUpserts us).keys ↔ k ∈ us.map (·.1) := by
  induction us using List.reverseRecOn with
  | nil => exact Iff.rfl
  | append_singleton us u ih =>
    rw [ofUpserts_concat, mem_keys_upsert, ih, List.map_append, List.mem_append, List.map_singleton,
      List.mem_singleton]

theorem find?_ofUpserts (us : List (Text × α)) (k : Text) :
    (ofUpserts us).find? k = us.reverse.lookup k := by
  induction us using List.reverseRecOn with
  | nil => rfl
  | append_singleton us u ih =>
    rw [ofUpserts_concat, find?_upsert, ih, List.reverse_append, List.reverse_singleton,
      List.singleton_append]
    exact (Dict.get?_cons k u.1 u.2 us.reverse).symm

/-- The keys stand in the order in which they came first. -/
theorem pairwise_keys_ofUpserts (us : List (Text × α)) :
    (ofUpserts us).keys.Pairwise fun k l =>
      (us.map (·.1)).idxOf k < (us.map (·.1)).idxOf l := by
  induction us using List.reverseRecOn with
  | nil => exact List.Pairwise.nil
  | append_singleton us u ih =>
    have hkept : (ofUpserts us).keys.Pairwise fun k l =>
        (us.map (·.1) ++ [u.1]).idxOf k < (us.map (·.1) ++ [u.1]).idxOf l := by
      refine ih.imp_of_mem fun hk hl hlt => ?_
      rwa [List.idxOf_append_of_mem (mem_keys_ofUpserts.1 hk),
        List.idxOf_append_of_mem (mem_keys_ofUpserts.1 hl)]
    rw [ofUpserts_concat, keys_upsert, List.map_append, List.map_singleton]
    split
    · exact hkept
    · rename_i hnew
      rw [contains_iff, mem_keys_ofUpserts] at hnew
      refine List.pairwise_append.2 ⟨hkept, List.pairwise_singleton .., fun k hk l hl => ?_⟩
      rw [List.mem_singleton.1 hl, List.idxOf_append_of_notMem hnew,
        List.idxOf_append_of_mem (mem_keys_ofUpserts.1 hk)]
      exact Nat.lt_of_lt_of_le (List.idxOf_lt_length_of_mem (mem_keys_ofUpserts.1 hk))
        (Nat.le_add_right ..)

theorem size_ofUpserts (us : List (Text × α)) :
    (ofUpserts us).size = (us.map (·.1)).toFinset.card := by
  have hsame : (ofUpserts us).keys.toFinset = (us.map (·.1)).toFinset :=
    Finset.ext fun k => by rw [List.mem_toFinset, List.mem_toFinset, mem_keys_ofUpserts]
  rw [← length_keys, ← List.toFinset_card_of_nodup (nodup_keys _), hsame]

/-- **A catalogue is a map in insertion order.**  A sequence of upserts leaves one record for each
    key that is used.  The records stand in the order in which the keys come first, and each is the
    last one of its key.  A look-up finds this record, or none if the key is not used, and the next
    upsert tells whether its key is. -/
theorem ofUpserts_inserts (us : List (Text × α)) :
    let c := ofUpserts us
    let used := us.map (·.1)
    let last := fun k => us.reverse.lookup k
    c.size = used.toFinset.card ∧
      (∃ keys : List Text, (∀ k, k ∈ keys ↔ k ∈ used) ∧
        keys.Pairwise (fun k l => used.idxOf k < used.idxOf l) ∧
        c.items.map some = keys.map last) ∧
      (∀ k, c.find? k = last k ∧ (c.find? k = none ↔ k ∉ used) ∧
        c.contains k = (c.find? k).isSome) ∧
      ∀ k a, c.containsThenUpsert k a = (decide (k ∈ used), ofUpserts (us ++ [(k, a)])) := by
  intro c used last
  have hfind : c.find? = last := funext (find?_ofUpserts us)
  have hknown : ∀ k, c.contains k = decide (k ∈ used) := fun k => by
    rw [Bool.eq_iff_iff, contains_iff, mem_keys_ofUpserts, decide_eq_true_iff]
  refine ⟨size_ofUpserts us, ⟨c.keys, fun k => mem_keys_ofUpserts, pairwise_keys_ofUpserts us, ?_⟩,
    fun k => ⟨congrFun hfind k, ?_, isSome_find?.symm⟩, fun k a => ?_⟩
  · rw [c.map_some_items, hfind]
  · rw [find?_eq_none_iff, mem_keys_ofUpserts]
  · rw [containsThenUpsert_eq, hknown, ofUpserts_concat]

/-- A record that is put in again keeps its place. -/
example : (ofUpserts [("a", 1), ("b", 2), ("a", 3)]).items = [3, 2] := by decide

end Reasoning.Catalogue
