/-
  Catalogues: records by key, in the order in which the keys came.

  The records stand in a list, and an index has the place of each key's record.  A record of a
  new key goes to the end; a record of a known key takes the place of the older one.

  * `Dict.Numbers`: an index gives every place to one key, and to no key any other place;
  * `Catalogue.containsThenUpsert`: puts a record in, and tells whether it took the place of an
    older one;
  * `Catalogue.keys`, `Catalogue.entries`: the keys of the records, in the order of the records.
-/
import Reasoning.Dict

namespace Reasoning

/-- The index gives each of the first `n` places to one key, and no key has another place. -/
structure Dict.Numbers (index : Dict Nat) (n : Nat) : Prop where
  lt : ∀ {k i}, index.get? k = some i → i < n
  inj : ∀ {k l i}, index.get? k = some i → index.get? l = some i → k = l
  onto : ∀ {i}, i < n → ∃ k, index.get? k = some i

namespace Dict.Numbers

theorem nil : Numbers [] 0 := ⟨nofun, nofun, nofun⟩

/-- A new key takes the next place. -/
theorem insert {index : Dict Nat} {n : Nat} {key : Text} (h : index.Numbers n)
    (hkey : index.get? key = none) : (index.insert key n).Numbers (n + 1) where
  lt {k i} hk := by
    rw [get?_insert] at hk
    split at hk
    · cases hk
      exact Nat.lt_succ_self n
    · exact Nat.lt_succ_of_lt (h.lt hk)
  inj {k l i} hk hl := by
    rw [get?_insert] at hk hl
    -- The next place is that of no older key.
    have hnew : ∀ {k}, index.get? k ≠ some n := fun hk => Nat.lt_irrefl n (h.lt hk)
    split at hk <;> split at hl
    · exact ‹k = key›.trans ‹l = key›.symm
    · cases hk
      exact absurd hl hnew
    · cases hl
      exact absurd hk hnew
    · exact h.inj hk hl
  onto {i} hi := by
    rcases Nat.lt_or_eq_of_le (Nat.le_of_lt_succ hi) with hlt | rfl
    · obtain ⟨k, hk⟩ := h.onto hlt
      have hne : k ≠ key := by
        rintro rfl
        cases hkey.symm.trans hk
      exact ⟨k, by rw [get?_insert, if_neg hne, hk]⟩
    · exact ⟨key, by rw [get?_insert, if_pos rfl]⟩

end Dict.Numbers

structure Catalogue (α : Type) where
  /-- The records in order. -/
  items : List α
  /-- The place of the record of a key. -/
  index : Dict Nat
  numbers : index.Numbers items.length

namespace Catalogue

variable {α : Type}

def empty : Catalogue α := ⟨[], [], .nil⟩

instance : Inhabited (Catalogue α) := ⟨empty⟩

/-- The record of a key. -/
def find? (c : Catalogue α) (key : Text) : Option α :=
  match h : c.index.get? key with
  | some i => some (c.items.get ⟨i, c.numbers.lt h⟩)
  | none => none

def contains (c : Catalogue α) (key : Text) : Bool := c.index.contains key

def size (c : Catalogue α) : Nat := c.items.length

/-- Puts a record in the place of its key, or at the end, and tells whether it took the place of
    an older one. -/
def containsThenUpsert (c : Catalogue α) (key : Text) (a : α) : Bool × Catalogue α :=
  match h : c.index.get? key with
  | some i => (true, ⟨c.items.set i a, c.index, by rw [List.length_set]; exact c.numbers⟩)
  | none => (false, ⟨c.items ++ [a], c.index.insert key c.size,
      by rw [List.length_append]; exact c.numbers.insert h⟩)

/-- Puts a record in the place of its key, or at the end. -/
def upsert (c : Catalogue α) (key : Text) (a : α) : Catalogue α := (c.containsThenUpsert key a).2

/-- The key of a place.  Every place of a record has one. -/
def keyAt (c : Catalogue α) (i : Nat) : Text :=
  (c.index.keys.find? fun k => c.index.get? k == some i).getD []

/-- The keys in the order of their records. -/
def keys (c : Catalogue α) : List Text := (List.range c.size).map c.keyAt

/-- The records with their keys. -/
def entries (c : Catalogue α) : List (Text × α) := c.keys.zip c.items

end Catalogue

end Reasoning
