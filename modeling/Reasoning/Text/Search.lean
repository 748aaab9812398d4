/-
  Searching and replacing in texts.

  * `Text.find?`: the offset of the first occurrence;
  * `Text.findWhere`: the offset of a hit between neighbours that are accepted; a hit that
    is refused is skipped as a whole;
  * `Text.findWord`: the offset of a hit with no word byte next to it;
  * `Text.Replacing`: a text in which replacing is under way, `Text.replaceAll`: every occurrence,
    from the left and without overlaps, is replaced in place; what was put in is not searched.
-/
import Reasoning.Text.Basic

namespace Reasoning.Text

/-- The offset of the first occurrence of `pat`. -/
def find? (t pat : Text) : Option Nat :=
  match t with
  | [] => if pat.isEmpty then some 0 else none
  | b :: t => if pat.isPrefixOf (b :: t) then some 0 else (find? t pat).map (· + 1)

theorem isPrefixOf_drop_of_find? {t pat : Text} {n : Nat} (h : t.find? pat = some n) :
    pat <+: t.drop n := by
  induction t generalizing n with
  | nil =>
    rw [find?] at h
    split at h
    · rename_i hpat
      rw [List.isEmpty_iff.1 hpat]
      exact List.nil_prefix
    · cases h
  | cons b t ih =>
    rw [find?] at h
    split at h
    · rename_i hpat
      cases h
      exact List.isPrefixOf_iff_prefix.1 hpat
    · obtain ⟨m, hm, rfl⟩ := Option.map_eq_some_iff.1 h
      exact ih hm

/-- The offset of the first occurrence of `pat` that does not begin before `start`. -/
def findFrom? (t pat : Text) (start : Nat) : Option Nat :=
  (find? (t.drop start) pat).map (start + ·)

/-- Whether `pat` occurs in `t`. -/
def contains (t pat : Text) : Bool := (find? t pat).isSome

/-- `findWhere`, with the byte before the current place, the number of bytes of a refused
    hit that are still to be passed over, and the current offset. -/
def findWhereFrom (w : Text) (accept : Option UInt8 → Text → Bool) :
    Option UInt8 → Nat → Nat → Text → Option Nat
  | _, _, _, [] => none
  | _, skip + 1, offset, b :: t => findWhereFrom w accept (some b) skip (offset + 1) t
  | previous, 0, offset, b :: t =>
    if w.isPrefixOf (b :: t) then
      if accept previous ((b :: t).drop w.length) then some offset
      else findWhereFrom w accept (some b) (w.length - 1) (offset + 1) t
    else findWhereFrom w accept (some b) 0 (offset + 1) t

/-- The offset of the first hit of `w` that is accepted for the byte before it and the text
    behind it.  The search goes on behind a hit that is not.

    The empty word is met at the beginning of every text.  If it is refused there, the search goes
    on at the same place and never comes to an end; `none` stands for that as well, and a caller
    answers only where it does not arise. -/
def findWhere (t w : Text) (accept : Option UInt8 → Text → Bool) : Option Nat :=
  if w.isEmpty then if accept none t then some 0 else none
  else findWhereFrom w accept none 0 0 t

/-- The empty word is found where the search for it comes to an end. -/
theorem isSome_findWhere_nil_iff {t : Text} {accept : Option UInt8 → Text → Bool} :
    (t.findWhere [] accept).isSome ↔ accept none t := by
  unfold findWhere
  cases accept none t <;> simp

theorem findWhere_of_ne_nil {t w : Text} (h : w ≠ []) (accept : Option UInt8 → Text → Bool) :
    t.findWhere w accept = findWhereFrom w accept none 0 0 t :=
  if_neg (mt List.isEmpty_iff.1 h)

/-- A word can stand between these neighbours: neither is a word byte. -/
def standsAlone (previous : Option UInt8) (rest : Text) : Bool :=
  !previous.any Byte.isWord && !rest.head?.any Byte.isWord

/-- The offset of the first hit of `w` in `t` that stands on its own. -/
def findWord (t w : Text) : Option Nat := findWhere t w standsAlone

/-- A text in which occurrences of another are replaced one by one.  It is done up to the
    position. -/
structure Replacing where
  text : Text
  pos : Nat
  deriving Repr, DecidableEq

namespace Replacing

/-- What is still to be searched. -/
def rest (r : Replacing) : Text := r.text.drop r.pos

/-- Replaces the next occurrence of `old`, and goes on behind what is put in. -/
def next? (old new : Text) (r : Replacing) : Option Replacing :=
  (r.text.findFrom? old r.pos).map fun p =>
    ⟨r.text.take p ++ new ++ r.text.drop (p + old.length), p + new.length⟩

/-- A round replaces one occurrence behind the position. -/
theorem exists_of_next? {old new : Text} {r s : Replacing} (hold : old ≠ [])
    (h : r.next? old new = some s) :
    ∃ before behind, r.text = before ++ old ++ behind ∧ r.pos ≤ before.length ∧
      s = ⟨before ++ new ++ behind, (before ++ new).length⟩ := by
  obtain ⟨p, hp, rfl⟩ := Option.map_eq_some_iff.1 h
  obtain ⟨n, hn, rfl⟩ := Option.map_eq_some_iff.1 hp
  obtain ⟨u, hu⟩ := isPrefixOf_drop_of_find? hn
  rw [List.drop_drop] at hu
  have hlength := congrArg List.length hu
  have hpos := List.length_pos_iff.2 hold
  rw [List.length_append, List.length_drop] at hlength
  have htake : (r.text.take (r.pos + n)).length = r.pos + n := by
    rw [List.length_take]
    omega
  refine ⟨r.text.take (r.pos + n), u, ?_, by omega, ?_⟩
  · rw [List.append_assoc, hu, List.take_append_drop]
  · rw [← List.drop_drop, ← hu, List.drop_left, List.length_append, htake]

/-- However long `new` is, less is left to be searched. -/
theorem rest_lt {old new : Text} {r s : Replacing} (hold : old ≠ [])
    (h : r.next? old new = some s) : s.rest.length < r.rest.length := by
  obtain ⟨before, behind, htext, hpos, rfl⟩ := exists_of_next? hold h
  have hlength := List.length_pos_iff.2 hold
  rw [rest, rest, List.drop_left, htext, List.length_drop, List.length_append, List.length_append]
  omega

/-- Replaces the occurrences of `old` until none is left. -/
def run (old new : Text) (hold : old ≠ []) (r : Replacing) : Text :=
  match h : r.next? old new with
  | none => r.text
  | some s =>
    have := rest_lt hold h
    s.run old new hold
termination_by r.rest.length

end Replacing

/-- Replaces every occurrence of `old` by `new`.  An empty `old` changes nothing. -/
def replaceAll (t old new : Text) : Text :=
  if hold : old = [] then t else Replacing.run old new hold ⟨t, 0⟩

/-- `splitOnPhrase`, with the number of bytes of the last occurrence that are still to be
    passed over. -/
def splitOnPhraseFrom (phrase : Text) : Nat → Text → List Text
  | _, [] => [[]]
  | skip + 1, _ :: t => splitOnPhraseFrom phrase skip t
  | 0, b :: t =>
    if phrase.isPrefixOf (lower ((b :: t).take phrase.length)) then
      [] :: splitOnPhraseFrom phrase (phrase.length - 1) t
    else match splitOnPhraseFrom phrase 0 t with
      | [] => [[b]]
      | p :: ps => (b :: p) :: ps

/-- The pieces between occurrences of a phrase in small letters, in whatever case the text
    has it. -/
def splitOnPhrase (t phrase : Text) : List Text := splitOnPhraseFrom phrase 0 t

end Reasoning.Text
