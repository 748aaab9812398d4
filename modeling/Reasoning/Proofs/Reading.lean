/-
  The texts of JSON values.

  * `Json.Printable`: all texts of a value are valid UTF-8, `Json.printable_iff`: it can be written;
  * `Json.printable_of_parse`: a value that is read from a text is valid, whatever the text;
  * what is taken from a valid value is valid, and so is what is built from valid texts.
-/
import Reasoning.Json.Parser
import Reasoning.Proofs.Dict
import Reasoning.Proofs.Except
import Reasoning.Proofs.Utf8

namespace Reasoning

namespace Json

open Text Utf8

/-- All texts of the value are valid UTF-8. -/
def Printable (j : Json) : Prop := ∀ s ∈ j.strings, s.Valid

variable {j v : Json} {es : List Json} {ms : List (Text × Json)} {s t : Text} {ts : List Text}

theorem printable_iff : j.Printable ↔ j.print?.isSome := by
  rw [isSome_print?_iff]
  exact forall₂_congr fun s _ => Text.valid_iff

/-! ## Building -/

@[simp] theorem printable_null : null.Printable := List.forall_mem_nil _

@[simp] theorem printable_bool (b : Bool) : (bool b).Printable := List.forall_mem_nil _

@[simp] theorem printable_int (n : Int) : (int n).Printable := List.forall_mem_nil _

@[simp] theorem printable_real (x : Double) : (real x).Printable := List.forall_mem_nil _

@[simp] theorem printable_ofNat (n : Nat) : (ofNat n).Printable := printable_int n

@[simp] theorem printable_ofSingle (x : Single) : (ofSingle x).Printable := printable_real _

@[simp] theorem printable_string : (string s).Printable ↔ s.Valid := by
  rw [Printable, strings, List.forall_mem_singleton]

theorem printable_array : (array es).Printable ↔ ∀ e ∈ es, e.Printable := by
  rw [Printable, strings]
  induction es with
  | nil => simp [elementStrings]
  | cons e es ih =>
    rw [elementStrings, List.forall_mem_append, ih, List.forall_mem_cons]
    rfl

@[simp] theorem printable_array_nil : (array []).Printable :=
  printable_array.2 (List.forall_mem_nil _)

@[simp] theorem printable_array_cons :
    (array (j :: es)).Printable ↔ j.Printable ∧ (array es).Printable := by
  rw [printable_array, List.forall_mem_cons, printable_array]

theorem printable_array_map {α : Type} {as : List α} {f : α → Json} :
    (array (as.map f)).Printable ↔ ∀ a ∈ as, (f a).Printable := by
  rw [printable_array, List.forall_mem_map]

theorem printable_object : (object ms).Printable ↔ ∀ m ∈ ms, m.1.Valid ∧ m.2.Printable := by
  rw [Printable, strings]
  induction ms with
  | nil => simp [memberStrings]
  | cons m ms ih =>
    rw [memberStrings, List.cons_append, List.forall_mem_cons, List.forall_mem_append, ih,
      List.forall_mem_cons, and_assoc]
    rfl

@[simp] theorem printable_ofText : (ofText s).Printable ↔ s.Valid := printable_string

@[simp] theorem printable_ofTexts : (ofTexts ts).Printable ↔ AllValid ts := by
  rw [ofTexts, printable_array, List.forall_mem_map]
  exact forall₂_congr fun t _ => printable_string

@[simp] theorem printable_ofMembers {ms : List (String × Json)} (h : ∀ m ∈ ms, m.2.Printable) :
    (ofMembers ms).Printable := by
  refine printable_object.2 fun m hm => ?_
  obtain ⟨n, hn, rfl⟩ := List.mem_map.1 (Dict.mem_of_mem_ofList hm)
  exact ⟨valid_ofString n.1, h n hn⟩

@[simp] theorem printable_ofDict {ν : Type} {d : Dict ν} {g : ν → Json} (hd : AllValid d.keys)
    (hg : ∀ v, (g v).Printable) : (ofDict g d).Printable := by
  refine printable_object.2 fun m hm => ?_
  obtain ⟨e, he, rfl⟩ := List.mem_map.1 hm
  exact ⟨hd _ (List.mem_map_of_mem he), hg e.2⟩

/-! ## Taking apart -/

theorem Printable.member? (h : j.Printable) {key : Text} (hv : j.member? key = some v) :
    v.Printable := by
  cases j with
  | object ms =>
    obtain ⟨before, after, rfl, -⟩ := List.lookup_eq_some_iff.1 hv
    exact (printable_object.1 h (key, v) (by simp)).2
  | _ => cases hv

theorem Printable.text? (h : j.Printable) (hs : j.text? = some s) : s.Valid := by
  cases j with
  | string t =>
    cases hs
    exact printable_string.1 h
  | _ => cases hs

theorem Printable.textField (h : j.Printable) (key : Text) {fallback : Text} (hf : fallback.Valid) :
    (j.textField key fallback).Valid := by
  unfold Json.textField
  cases hs : (j.member? key).bind Json.text? with
  | none => exact hf
  | some s =>
    obtain ⟨v, hv, hs⟩ := Option.bind_eq_some_iff.1 hs
    exact (h.member? hv).text? hs

theorem Printable.listField (h : j.Printable) (key : Text) :
    ∀ e ∈ j.listField key, e.Printable := by
  unfold Json.listField Json.arrayField?
  cases hes : (j.member? key).bind Json.elements? with
  | none => exact List.forall_mem_nil _
  | some es =>
    obtain ⟨v, hv, hes⟩ := Option.bind_eq_some_iff.1 hes
    cases v with
    | array es' =>
      cases hes
      exact printable_array.1 (h.member? hv)
    | _ => cases hes

theorem Printable.textsField (h : j.Printable) (key : Text) : AllValid (j.textsField key) := by
  intro t ht
  obtain ⟨e, he, ht⟩ := List.mem_filterMap.1 ht
  exact (h.listField key e he).text? ht

theorem Printable.members (h : j.Printable) : ∀ m ∈ j.members, m.1.Valid ∧ m.2.Printable := by
  cases j with
  | object ms => exact printable_object.1 h
  | _ => exact List.forall_mem_nil _

theorem Printable.getD_member? (h : j.Printable) (key : Text) :
    ((j.member? key).getD null).Printable := by
  cases hv : j.member? key with
  | none => exact printable_null
  | some v => exact h.member? hv

/-! ## Reading strings -/

theorem hexValue?_lt {b : UInt8} {n : Nat} (h : Byte.hexValue? b = some n) : n < 16 := by
  have hbyte : ∀ b, (Byte.hexValue? b).all (· < 16) = true := by decide +kernel
  simpa [h] using hbyte b

theorem hex4?_lt {n : Nat} {rest : Text} (h : hex4? t = some (n, rest)) : n < 0x10000 := by
  match t, h with
  | a :: b :: c :: d :: t, h =>
    rw [hex4?] at h
    obtain ⟨va, ha, h⟩ := Option.bind_eq_some_iff.1 h
    obtain ⟨vb, hb, h⟩ := Option.bind_eq_some_iff.1 h
    obtain ⟨vc, hc, h⟩ := Option.bind_eq_some_iff.1 h
    obtain ⟨vd, hd, h⟩ := Option.bind_eq_some_iff.1 h
    cases h
    have := hexValue?_lt ha
    have := hexValue?_lt hb
    have := hexValue?_lt hc
    have := hexValue?_lt hd
    simp only [Numeral.ofDigits, List.foldl_cons, List.foldl_nil]
    omega

theorem valid_encode {n : Nat} (h : n.isValidChar) : (encode n).Valid := by
  have := Text.Valid.cons (symbol_encode h) .nil
  rwa [List.append_nil] at this

/-- What an escape stands for is a symbol; two surrogates make one. -/
theorem valid_escape? {bytes rest : Text} (h : escape? t = some (bytes, rest)) :
    bytes.Valid := by
  cases t with
  | nil => cases h
  | cons b t =>
    rw [escape?] at h
    split at h
    · obtain ⟨⟨n, t⟩, hn, h⟩ := Option.bind_eq_some_iff.1 h
      have hlt := hex4?_lt hn
      dsimp only at h
      split at h
      · rename_i hhigh
        simp only [Bool.and_eq_true, decide_eq_true_eq] at hhigh
        split at h
        · split at h
          · obtain ⟨⟨m, t⟩, hm, h⟩ := Option.bind_eq_some_iff.1 h
            dsimp only at h
            split at h
            · rename_i hlow
              simp only [Bool.and_eq_true, decide_eq_true_eq] at hlow
              rw [Option.some.injEq, Prod.mk.injEq] at h
              rw [← h.1]
              refine valid_encode (.inr ⟨?_, ?_⟩) <;> omega
            · cases h
          · cases h
        · cases h
      · split at h
        · cases h
        · cases h
          refine valid_encode ?_
          unfold Nat.isValidChar
          simp only [Bool.and_eq_true, decide_eq_true_eq] at *
          omega
    · obtain ⟨c, hc, h⟩ := Option.map_eq_some_iff.1 h
      cases h
      have hbyte : ∀ b, (escaped? b).all (· < 0x80) = true := by decide +kernel
      exact valid_of_ascii (by simpa [hc] using hbyte b)

theorem valid_stringFrom {fuel : Nat} {done rest : Text} (hdone : Text.Valid done.reverse)
    (h : stringFrom fuel done t = some (s, rest)) : s.Valid := by
  induction fuel generalizing done t with
  | zero =>
    rw [stringFrom] at h
    cases h
  | succ fuel ih =>
    cases t with
    | nil => cases h
    | cons b t =>
      rw [stringFrom] at h
      split at h
      · cases h
        exact hdone
      · split at h
        · obtain ⟨⟨bytes, u⟩, hbytes, h⟩ := Option.bind_eq_some_iff.1 h
          refine ih ?_ h
          rw [List.reverse_append, List.reverse_reverse]
          exact hdone.append (valid_escape? hbytes)
        · split at h
          · cases h
          · obtain ⟨n, hn, h⟩ := Option.bind_eq_some_iff.1 h
            obtain ⟨v, u, he, hv, rfl⟩ := exists_symbol hn
            refine ih ?_ h
            rw [List.reverse_append, List.reverse_reverse, he, List.take_left]
            refine hdone.append ?_
            have := Text.Valid.cons hv .nil
            rwa [List.append_nil] at this

theorem valid_readString {rest : Text} (h : readString t = .ok (s, rest)) : s.Valid := by
  unfold readString at h
  split at h
  · rename_i r hr
    cases h
    exact valid_stringFrom (show Text.Valid (List.reverse []) from .nil) hr
  · cases h

/-! ## Reading values -/

theorem readWord_eq_ok {w rest : Text} (h : readWord w v t = .ok (j, rest)) : j = v := by
  unfold readWord at h
  split at h
  · cases h
    rfl
  · cases h

/-- A numeral is a whole number or a real one. -/
theorem value_cases {d : Digits} (h : d.value = .ok j) : (∃ n, int n = j) ∨ ∃ x, real x = j := by
  unfold Digits.value at h
  dsimp only at h
  generalize (d.fraction.isEmpty && d.exponent.isNone && _) = whole at h
  cases whole with
  | true => exact .inl ⟨_, Except.ok.inj h⟩
  | false =>
    rw [if_neg Bool.false_ne_true] at h
    generalize Numeral.toBinary _ = x at h
    cases hx : x.isFinite with
    | false =>
      rw [hx, if_neg Bool.false_ne_true] at h
      exact nomatch h
    | true =>
      rw [hx, if_pos rfl] at h
      exact .inr ⟨x, Except.ok.inj h⟩

theorem printable_readNumber {rest : Text} (h : readNumber t = .ok (j, rest)) : j.Printable := by
  unfold readNumber at h
  split at h
  · cases h
  · obtain ⟨v, hv, he⟩ := map_eq_ok.1 h
    cases he
    rcases value_cases hv with ⟨n, rfl⟩ | ⟨x, rfl⟩
    · exact printable_int n
    · exact printable_real x

/-- What the readers make of a text with so much fuel is valid. -/
structure ReadsValid (fuel : Nat) : Prop where
  value : ∀ {t j rest}, readValue fuel t = .ok (j, rest) → j.Printable
  elements : ∀ {t es rest}, readElements fuel t = .ok (es, rest) → ∀ e ∈ es, e.Printable
  members : ∀ {t ms rest}, readMembers fuel t = .ok (ms, rest) →
    ∀ m ∈ ms, m.1.Valid ∧ m.2.Printable

namespace ReadsValid

variable {fuel : Nat} {rest : Text}

theorem array (h : ReadsValid fuel)
    (hread : readValue (fuel + 1) ('['.toUInt8 :: t) = .ok (j, rest)) : j.Printable := by
  rw [readValue, if_neg (by decide), if_pos (by decide)] at hread
  split at hread
  · cases hread
  split at hread
  · cases hread
    exact printable_array.2 (List.forall_mem_nil _)
  · obtain ⟨⟨es, u⟩, hes, he⟩ := map_eq_ok.1 hread
    cases he
    exact printable_array.2 (h.elements hes)

theorem object (h : ReadsValid fuel)
    (hread : readValue (fuel + 1) ('\x7b'.toUInt8 :: t) = .ok (j, rest)) : j.Printable := by
  rw [readValue, if_neg (by decide), if_neg (by decide), if_pos (by decide)] at hread
  split at hread
  · cases hread
  split at hread
  · cases hread
    exact printable_object.2 (List.forall_mem_nil _)
  · obtain ⟨⟨ms, u⟩, hms, he⟩ := map_eq_ok.1 hread
    cases he
    exact printable_object.2 fun m hm => h.members hms m (Dict.mem_of_mem_ofList hm)

theorem value_succ (h : ReadsValid fuel) (hread : readValue (fuel + 1) t = .ok (j, rest)) :
    j.Printable := by
  cases t with
  | nil => cases hread
  | cons b t =>
    by_cases harray : b = '['.toUInt8
    · subst harray
      exact h.array hread
    by_cases hobject : b = '\x7b'.toUInt8
    · subst hobject
      exact h.object hread
    rw [readValue] at hread
    split at hread
    · obtain ⟨⟨s, u⟩, hs, he⟩ := map_eq_ok.1 hread
      cases he
      exact printable_string.2 (valid_readString hs)
    rw [if_neg (by simpa using harray), if_neg (by simpa using hobject)] at hread
    split at hread
    · exact readWord_eq_ok hread ▸ printable_null
    split at hread
    · exact readWord_eq_ok hread ▸ printable_bool true
    split at hread
    · exact readWord_eq_ok hread ▸ printable_bool false
    exact printable_readNumber hread

theorem elements_succ (h : ReadsValid fuel)
    (hread : readElements (fuel + 1) t = .ok (es, rest)) : ∀ e ∈ es, e.Printable := by
  rw [readElements] at hread
  obtain ⟨⟨e, u⟩, hvalue, hread⟩ := bind_eq_ok.1 hread
  have he := h.value hvalue
  dsimp only at hread
  split at hread
  · cases hread
  split at hread
  · cases hread
    simpa using he
  split at hread
  · obtain ⟨⟨es, u⟩, hes, hrest⟩ := bind_eq_ok.1 hread
    cases hrest
    exact List.forall_mem_cons.2 ⟨he, h.elements hes⟩
  · cases hread

theorem members_succ (h : ReadsValid fuel) (hread : readMembers (fuel + 1) t = .ok (ms, rest)) :
    ∀ m ∈ ms, m.1.Valid ∧ m.2.Printable := by
  rw [readMembers] at hread
  split at hread
  · cases hread
  split at hread
  · cases hread
  obtain ⟨⟨key, u⟩, hkey, hread⟩ := bind_eq_ok.1 hread
  have hk := valid_readString hkey
  dsimp only at hread
  split at hread
  · cases hread
  split at hread
  · cases hread
  obtain ⟨⟨v, u⟩, hvalue, hread⟩ := bind_eq_ok.1 hread
  have hv := h.value hvalue
  dsimp only at hread
  split at hread
  · cases hread
  split at hread
  · cases hread
    simpa using ⟨hk, hv⟩
  split at hread
  · obtain ⟨⟨ms, u⟩, hms, hrest⟩ := bind_eq_ok.1 hread
    cases hrest
    exact List.forall_mem_cons.2 ⟨⟨hk, hv⟩, h.members hms⟩
  · cases hread

end ReadsValid

/-- What is read is valid, by induction on the fuel. -/
theorem readsValid (fuel : Nat) : ReadsValid fuel := by
  induction fuel with
  | zero =>
    refine ⟨fun {t} _ _ h => ?_, fun h => ?_, fun h => ?_⟩
    · cases t <;> cases h
    · cases h
    · cases h
  | succ fuel ih => exact ⟨ih.value_succ, ih.elements_succ, ih.members_succ⟩

/-- **A value that is read is valid**, whatever bytes it is read from. -/
theorem printable_of_parse (h : parse t = .ok j) : j.Printable := by
  obtain ⟨⟨v, u⟩, hvalue, hread⟩ := bind_eq_ok.1 h
  dsimp only at hread
  split at hread
  · cases hread
    exact (readsValid _).value hvalue
  · cases hread

end Json

end Reasoning
