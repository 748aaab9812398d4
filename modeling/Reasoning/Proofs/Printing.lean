/-
  What can be written as JSON, and on which lines.

  * `Json.strings`: all texts of a value, `Json.isSome_print?_iff`: a value can be written if and
    only if they are valid UTF-8;
  * `Json.oneLine_print?`: a value is written on one line;
  * `CommandLine.textLines_flatMap_line`: texts of one line each are the lines of what they are
    written to.
-/
import Mathlib.Tactic.SplitIfs
import Reasoning.CommandLine.Batch
import Reasoning.CommandLine.Report
import Reasoning.Json.Printer

namespace Reasoning

/-! ## Texts of one line -/

namespace Text

/-- The text has no line feed. -/
def OneLine (t : Text) : Prop := 10 ∉ t

instance (t : Text) : Decidable t.OneLine := inferInstanceAs (Decidable (10 ∉ t))

variable {s t : Text} {ts : List Text}

theorem OneLine.append (hs : s.OneLine) (ht : t.OneLine) : OneLine (s ++ t) := fun h =>
  (List.mem_append.1 h).elim hs ht

theorem OneLine.cons {b : UInt8} (hb : b ≠ 10) (ht : t.OneLine) : OneLine (b :: t) := fun h =>
  (List.mem_cons.1 h).elim (fun he => hb he.symm) ht

theorem OneLine.sublist (ht : t.OneLine) (h : s.Sublist t) : s.OneLine := fun hs => ht (h.mem hs)

theorem oneLine_replicate (n : Nat) {b : UInt8} (hb : b ≠ 10) : OneLine (List.replicate n b) :=
  fun h => hb (List.eq_of_mem_replicate h).symm

theorem OneLine.join (hs : s.OneLine) (hts : ∀ t ∈ ts, t.OneLine) : OneLine (join s ts) := by
  induction ts with
  | nil => exact List.not_mem_nil
  | cons t ts ih =>
    have ht := hts t (List.mem_cons_self ..)
    cases ts with
    | nil => exact ht
    | cons u ts => exact (ht.append hs).append (ih fun v hv => hts v (List.mem_cons_of_mem _ hv))

/-- The bytes of a string are those of its characters. -/
theorem ofString_ofList (cs : List Char) :
    ofString (String.ofList cs) = cs.flatMap String.utf8EncodeChar := by
  unfold ofString String.toUTF8
  rw [String.toByteArray_ofList]
  exact List.toList_data_toByteArray

theorem ofString_append (s t : String) : ofString (s ++ t) = ofString s ++ ofString t := by
  unfold ofString String.toUTF8
  rw [String.toByteArray_append, ByteArray.toList_data_append]

/-- A number is written with digits. -/
theorem isDigit_of_mem_ofNat {n : Nat} {b : UInt8} (hb : b ∈ ofNat n) : Byte.isDigit b := by
  rw [show ofNat n = ofString (String.ofList (Nat.toDigits 10 n)) from rfl, ofString_ofList] at hb
  obtain ⟨c, hc, hb⟩ := List.mem_flatMap.1 hb
  have hdigit : 48 ≤ c.toNat ∧ c.toNat ≤ 57 := by
    have := Nat.isDigit_of_mem_toDigits (by decide) (by decide) hc
    simpa [Char.isDigit, UInt32.le_iff_toNat_le] using this
  have hencode : String.utf8EncodeChar c = [UInt8.ofNat c.toNat] :=
    if_pos (show c.toNat ≤ 127 by omega)
  rw [hencode, List.mem_singleton] at hb
  have hbyte : b.toNat = c.toNat := by
    rw [hb, UInt8.toNat_ofNat']
    omega
  unfold Byte.isDigit
  rw [Bool.and_eq_true, decide_eq_true_eq, decide_eq_true_eq, UInt8.le_iff_toNat_le,
    UInt8.le_iff_toNat_le, hbyte]
  exact hdigit

theorem oneLine_ofNat (n : Nat) : (ofNat n).OneLine := fun h => by
  have := isDigit_of_mem_ofNat h
  revert this
  decide

theorem oneLine_ofInt (n : Int) : (ofString (toString n)).OneLine := by
  cases n with
  | ofNat n => exact oneLine_ofNat n
  | negSucc n =>
    rw [show toString (Int.negSucc n) = "-" ++ toString (n + 1) from rfl, ofString_append]
    exact OneLine.append (by decide) (oneLine_ofNat _)

end Text

/-! ## Numbers -/

namespace Binary

open Text

theorem oneLine_layout (d : Decimal) : (layout d).OneLine := by
  have hdigits : (Text.ofNat d.digits).OneLine := oneLine_ofNat d.digits
  have hzeros (n : Nat) : OneLine (List.replicate n '0'.toUInt8) := oneLine_replicate n (by decide)
  unfold layout
  dsimp only
  split
  · exact (hdigits.append (hzeros _)).append (by decide)
  · split
    · exact ((hdigits.sublist (List.take_sublist ..)).append (by decide)).append
        (hdigits.sublist (List.drop_sublist ..))
    · split
      · exact (OneLine.append (by decide) (hzeros _)).append hdigits
      · refine .append (.append (.append (.append (hdigits.sublist (List.take_sublist ..)) ?_) ?_)
          (hzeros _)) (oneLine_ofNat _)
        · split
          · exact List.not_mem_nil
          · exact OneLine.append (by decide) (hdigits.sublist (List.drop_sublist ..))
        · split <;> decide

end Binary

/-! ## Values -/

namespace Json

open Text

theorem hexDigit_ne : ∀ n < 16, hexDigit n ≠ 10 := by decide

theorem oneLine_escape (b : UInt8) : (escape b).OneLine := by
  unfold escape
  split_ifs with _ _ _ _ h10
  -- All but a control byte and a byte that stands as it is are written as constants.
  any_goals decide
  · have hb := b.toNat_lt
    exact .append (by decide) (.cons (hexDigit_ne _ (by omega))
      (.cons (hexDigit_ne _ (by omega)) List.not_mem_nil))
  · exact .cons (by simpa using h10) List.not_mem_nil

theorem oneLine_quote? {s t : Text} (h : quote? s = some t) : t.OneLine := by
  unfold quote? at h
  split at h
  · cases h
    refine .append (.cons (by decide) fun h => ?_) (by decide)
    obtain ⟨b, -, hb⟩ := List.mem_flatMap.1 h
    exact oneLine_escape b hb
  · cases h

theorem oneLine_printReal (x : Double) : (printReal x).OneLine := by
  unfold printReal
  cases x with
  | nan => exact (by decide : (Text.ofString "null").OneLine)
  | infinite => exact (by decide : (Text.ofString "null").OneLine)
  | finite negative units fits =>
    have hdigits : OneLine (if units = 0 then Text.ofString "0.0"
        else Binary.layout (Binary.shortest units fits)) := by
      split
      · decide
      · exact Binary.oneLine_layout _
    unfold Binary.shortestText?
    rw [Option.getD_some]
    split
    · exact hdigits.cons (by decide)
    · exact hdigits

mutual

/-- A value is written on one line. -/
theorem oneLine_print? : ∀ {j : Json} {t : Text}, print? j = some t → t.OneLine
  | null, t, h => by
    cases h
    decide
  | bool b, t, h => by
    cases h
    cases b <;> decide
  | int n, t, h => by
    cases h
    exact oneLine_ofInt n
  | real x, t, h => by
    cases h
    exact oneLine_printReal x
  | string s, t, h => oneLine_quote? h
  | array es, t, h => by
    obtain ⟨ts, hts, h⟩ := Option.bind_eq_some_iff.1 h
    cases h
    exact .append (.cons (by decide) (.join (by decide) (oneLine_printAll? hts))) (by decide)
  | object ms, t, h => by
    obtain ⟨ts, hts, h⟩ := Option.bind_eq_some_iff.1 h
    cases h
    exact .append (.cons (by decide) (.join (by decide) (oneLine_printMembers? hts))) (by decide)

theorem oneLine_printAll? : ∀ {es : List Json} {ts : List Text}, printAll? es = some ts →
    ∀ t ∈ ts, t.OneLine
  | [], ts, h => by
    cases h
    exact List.forall_mem_nil _
  | e :: es, ts, h => by
    obtain ⟨t, ht, h⟩ := Option.bind_eq_some_iff.1 h
    obtain ⟨us, hus, h⟩ := Option.bind_eq_some_iff.1 h
    cases h
    exact List.forall_mem_cons.2 ⟨oneLine_print? ht, oneLine_printAll? hus⟩

theorem oneLine_printMembers? : ∀ {ms : List (Text × Json)} {ts : List Text},
    printMembers? ms = some ts → ∀ t ∈ ts, t.OneLine
  | [], ts, h => by
    cases h
    exact List.forall_mem_nil _
  | (k, v) :: ms, ts, h => by
    obtain ⟨q, hq, h⟩ := Option.bind_eq_some_iff.1 h
    obtain ⟨t, ht, h⟩ := Option.bind_eq_some_iff.1 h
    obtain ⟨us, hus, h⟩ := Option.bind_eq_some_iff.1 h
    cases h
    have hfirst : OneLine (q ++ ':'.toUInt8 :: t) :=
      (oneLine_quote? hq).append (.cons (by decide) (oneLine_print? ht))
    exact List.forall_mem_cons.2 ⟨hfirst, oneLine_printMembers? hus⟩

end

mutual

/-- All texts of a value, keys included. -/
def strings : Json → List Text
  | string s => [s]
  | array es => elementStrings es
  | object ms => memberStrings ms
  | _ => []

/-- All texts of the elements of an array. -/
def elementStrings : List Json → List Text
  | [] => []
  | e :: es => strings e ++ elementStrings es

/-- All texts of the members of an object. -/
def memberStrings : List (Text × Json) → List Text
  | [] => []
  | (k, v) :: ms => k :: strings v ++ memberStrings ms

end

theorem isSome_quote?_iff {s : Text} : (quote? s).isSome ↔ s.isUtf8 := by
  unfold quote?
  split <;> simp_all

mutual

/-- A value can be written if all its texts are valid UTF-8. -/
theorem isSome_print?_iff : ∀ {j : Json}, (print? j).isSome ↔ ∀ s ∈ j.strings, s.isUtf8
  | null => by simp [print?, strings]
  | bool b => by simp [print?, strings]
  | int n => by simp [print?, strings]
  | real x => by simp [print?, strings]
  | string s => by simp [print?, strings, isSome_quote?_iff]
  | array es => by
    rw [strings, ← isSome_printAll?_iff, print?]
    cases printAll? es <;> simp
  | object ms => by
    rw [strings, ← isSome_printMembers?_iff, print?]
    cases printMembers? ms <;> simp

theorem isSome_printAll?_iff : ∀ {es : List Json},
    (printAll? es).isSome ↔ ∀ s ∈ elementStrings es, s.isUtf8
  | [] => by simp [printAll?, elementStrings]
  | e :: es => by
    rw [elementStrings, List.forall_mem_append, ← isSome_print?_iff, ← isSome_printAll?_iff,
      printAll?]
    cases print? e <;> cases printAll? es <;> simp

theorem isSome_printMembers?_iff : ∀ {ms : List (Text × Json)},
    (printMembers? ms).isSome ↔ ∀ s ∈ memberStrings ms, s.isUtf8
  | [] => by simp [printMembers?, memberStrings]
  | (k, v) :: ms => by
    rw [memberStrings, List.cons_append, List.forall_mem_cons, List.forall_mem_append,
      ← isSome_quote?_iff, ← isSome_print?_iff, ← isSome_printMembers?_iff, printMembers?]
    cases quote? k <;> cases print? v <;> cases printMembers? ms <;> simp

end

end Json

/-! ## Lines -/

namespace CommandLine

theorem splitWhere_append_cons {sep : UInt8 → Bool} {t : Text} (ht : ∀ b ∈ t, sep b = false)
    {b : UInt8} (hb : sep b = true) (rest : Text) :
    Text.splitWhere sep (t ++ b :: rest) = t :: Text.splitWhere sep rest := by
  induction t with
  | nil =>
    rw [List.nil_append, Text.splitWhere, if_pos hb]
  | cons c t ih =>
    rw [List.cons_append, Text.splitWhere, if_neg (by simp [ht c (List.mem_cons_self ..)]),
      ih fun d hd => ht d (List.mem_cons_of_mem _ hd)]

/-- What is written line by line comes back as these lines. -/
theorem textLines_flatMap_line {ts : List Text} (hts : ∀ t ∈ ts, t.OneLine) :
    textLines (ts.flatMap fun t => line [t]) = ts := by
  have hsplit : Text.splitWhere (· == 10) (ts.flatMap fun t => line [t]) = ts ++ [[]] := by
    induction ts with
    | nil => rfl
    | cons t ts ih =>
      have ht : ∀ b ∈ t, (b == 10) = false := fun b hb => beq_eq_false_iff_ne.2 fun he =>
        hts t (List.mem_cons_self ..) (he ▸ hb)
      rw [List.flatMap_cons, line, List.flatten_singleton, List.append_assoc, List.cons_append,
        List.nil_append, splitWhere_append_cons ht rfl,
        ih fun u hu => hts u (List.mem_cons_of_mem _ hu), List.cons_append]
  unfold textLines
  rw [hsplit]
  simp

end CommandLine

end Reasoning
