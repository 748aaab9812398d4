/-
  Tables keyed by texts, in the order of the keys.

  A table is the list of its entries in increasing order of keys, each key once.  Two
  tables with the same entries are therefore the same list, and going through a table goes
  through its keys in order.
-/
import Reasoning.Text.Basic

namespace Reasoning

/-- A table from texts to `ν`, in the order of the keys. -/
abbrev Dict (ν : Type) := List (Text × ν)

namespace Dict

variable {ν μ : Type}

/-- Sets the value of a key, in place of an older one. -/
def insert (k : Text) (v : ν) : Dict ν → Dict ν
  | [] => [(k, v)]
  | (l, w) :: d =>
    if k.before l then (k, v) :: (l, w) :: d
    else if k == l then (k, v) :: d
    else (l, w) :: insert k v d

/-- The value of a key. -/
def get? (d : Dict ν) (k : Text) : Option ν := List.lookup k d

def contains (d : Dict ν) (k : Text) : Bool := (d.get? k).isSome

@[simp] theorem get?_nil (k : Text) : get? ([] : Dict ν) k = none := rfl

theorem get?_cons (k l : Text) (v : ν) (d : Dict ν) :
    get? ((l, v) :: d) k = if k = l then some v else get? d k := by
  unfold get?
  rw [List.lookup_cons]
  by_cases h : k = l
  · simp [h]
  · simp [h, beq_eq_false_iff_ne.2 h]

/-- Setting a key changes the value of this key alone. -/
theorem get?_insert (d : Dict ν) (k l : Text) (v : ν) :
    (d.insert k v).get? l = if l = k then some v else d.get? l := by
  induction d with
  | nil => simp [insert, get?_cons]
  | cons e d ih =>
    obtain ⟨m, w⟩ := e
    unfold insert
    split
    · rw [get?_cons]
    · split
      · rename_i h
        rw [get?_cons, get?_cons, eq_of_beq h]
        by_cases hl : l = m <;> simp [hl]
      · rename_i h
        rw [get?_cons, get?_cons, ih]
        by_cases hl : l = m
        · subst hl
          have hk : ¬ l = k := fun he => h (by simp [he])
          simp [hk]
        · simp [hl]

/-- The table of a list of entries; of entries with the same key the last one counts. -/
def ofList (entries : List (Text × ν)) : Dict ν :=
  entries.foldl (fun d e => d.insert e.1 e.2) []

def keys (d : Dict ν) : List Text := d.map (·.1)

def values (d : Dict ν) : List ν := d.map (·.2)

/-- Some texts in the order of tables, each once. -/
def sorted (ts : List Text) : List Text := (ofList (ts.map fun t => (t, ()))).keys

/-- The same keys with other values. -/
def mapValues (g : ν → μ) (d : Dict ν) : Dict μ := d.map fun e => (e.1, g e.2)

end Dict

end Reasoning
