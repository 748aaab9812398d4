/-
  Which texts are JSON.

  The reader of JSON stops at the first fault.  Where it comes to is told here without fuel, by a
  grammar: of what stands in front of a place, and of the numbers too large that it may meet.

  * `Json.Spans`: a value, or the rest of an array or object, stands at the start of a text;
  * `Json.Overflows`: all is well up to a number that is too large;
  * `Json.accounts_behind`: what the reader tells is true, however much fuel it has;
  * `Json.Spans.behind_eq`, `Json.Overflows.behind_eq`: with fuel enough it tells all;
  * `Json.exists_parse_iff`, `Json.parse_eq_numberTooLarge_iff`: these are the texts that are read,
    and those that are refused for a number.
-/
import Reasoning.Json.Parser

namespace Reasoning

namespace Json

/-! ## Texts that are read -/

/-- Values that hold others. -/
inductive Container where
  | array
  | object

namespace Container

def opener : Container → UInt8
  | array => '['.toUInt8
  | object => '\x7b'.toUInt8

def closer : Container → UInt8
  | array => ']'.toUInt8
  | object => '\x7d'.toUInt8

/-- The text from where the value of an entry starts, which in an object is behind a key and a
    colon. -/
def entry (k : Container) (t : Text) : Except Fault Text :=
  match k with
  | array => .ok (skipBlank t)
  | object =>
    match skipBlank t with
    | [] => .error .malformed
    | q :: t =>
      if q != '"'.toUInt8 then .error .malformed
      else do
        let (_, t) ← readString t
        match skipBlank t with
        | [] => .error .malformed
        | c :: t => if c != ':'.toUInt8 then .error .malformed else .ok (skipBlank t)

end Container

/-- What is expected at a place: a value, or the entries of a container to its end. -/
inductive Place where
  | value
  | entries (k : Container)

/-- What is expected stands at the start of the text, and `rest` is behind it. -/
inductive Spans : Place → Text → Text → Prop
  | string {t s rest} : readString t = .ok (s, rest) → Spans .value ('"'.toUInt8 :: t) rest
  | word {w rest} : w ∈ Text.ofStrings ["null", "true", "false"] → Spans .value (w ++ rest) rest
  | number {t j rest} : readNumber t = .ok (j, rest) → Spans .value t rest
  | empty {k : Container} {t rest} : skipBlank t = k.closer :: rest →
      Spans .value (k.opener :: t) rest
  | full {k : Container} {t b r rest} : skipBlank t = b :: r → b ≠ k.closer →
      Spans (.entries k) (b :: r) rest → Spans .value (k.opener :: t) rest
  | last {k : Container} {t w u rest} : k.entry t = .ok w → Spans .value w u →
      skipBlank u = k.closer :: rest → Spans (.entries k) t rest
  | more {k : Container} {t w u v rest} : k.entry t = .ok w → Spans .value w u →
      skipBlank u = ','.toUInt8 :: v → Spans (.entries k) v rest → Spans (.entries k) t rest

/-- What is expected stands at the start of the text up to a number that is too large. -/
inductive Overflows : Place → Text → Prop
  | number {t} : readNumber t = .error .numberTooLarge → Overflows .value t
  | full {k : Container} {t b r} : skipBlank t = b :: r → b ≠ k.closer →
      Overflows (.entries k) (b :: r) → Overflows .value (k.opener :: t)
  | entry {k : Container} {t w} : k.entry t = .ok w → Overflows .value w → Overflows (.entries k) t
  | later {k : Container} {t w u v} : k.entry t = .ok w → Spans .value w u →
      skipBlank u = ','.toUInt8 :: v → Overflows (.entries k) v → Overflows (.entries k) t

variable {fuel : Nat} {p : Place} {k : Container} {t u rest : Text} {b : UInt8} {j : Json}

/-! ## The reader, step by step -/

/-- The text behind what is read at a place. -/
def behind : Place → Nat → Text → Except Fault Text
  | .value, fuel, t => (readValue fuel t).map (·.2)
  | .entries .array, fuel, t => (readElements fuel t).map (·.2)
  | .entries .object, fuel, t => (readMembers fuel t).map (·.2)

/-- What is behind a container, from behind its opening bracket. -/
def behindOpener (fuel : Nat) (k : Container) (t : Text) : Except Fault Text :=
  match skipBlank t with
  | [] => .error .malformed
  | c :: r => if c == k.closer then .ok r else behind (.entries k) fuel (c :: r)

/-- What is behind the entries of a container, from behind the value of the first one. -/
def behindEntry (fuel : Nat) (k : Container) (u : Text) : Except Fault Text :=
  match skipBlank u with
  | [] => .error .malformed
  | c :: v =>
    if c == k.closer then .ok v
    else if c == ','.toUInt8 then behind (.entries k) fuel v
    else .error .malformed

theorem behind_array (fuel : Nat) (t : Text) :
    behind .value (fuel + 1) (Container.array.opener :: t) = behindOpener fuel .array t := by
  show (readValue (fuel + 1) ('['.toUInt8 :: t)).map (·.2) = _
  rw [readValue, if_neg (by decide), if_pos (by decide)]
  unfold behindOpener
  cases skipBlank t with
  | nil => rfl
  | cons c r =>
    show Except.map _ (if c == ']'.toUInt8 then _ else _) = if c == ']'.toUInt8 then _ else _
    split
    · rfl
    · show Except.map _ (Except.map _ _) = (readElements fuel (c :: r)).map _
      cases readElements fuel (c :: r) <;> rfl

theorem behind_object (fuel : Nat) (t : Text) :
    behind .value (fuel + 1) (Container.object.opener :: t) = behindOpener fuel .object t := by
  show (readValue (fuel + 1) ('\x7b'.toUInt8 :: t)).map (·.2) = _
  rw [readValue, if_neg (by decide), if_neg (by decide), if_pos (by decide)]
  unfold behindOpener
  cases skipBlank t with
  | nil => rfl
  | cons c r =>
    show Except.map _ (if c == '\x7d'.toUInt8 then _ else _) = if c == '\x7d'.toUInt8 then _ else _
    split
    · rfl
    · show Except.map _ (Except.map _ _) = (readMembers fuel (c :: r)).map _
      cases readMembers fuel (c :: r) <;> rfl

theorem behind_value (fuel : Nat) (b : UInt8) (t : Text) :
    behind .value (fuel + 1) (b :: t) =
      if b == '"'.toUInt8 then (readString t).map (·.2)
      else if b == '['.toUInt8 then behindOpener fuel .array t
      else if b == '\x7b'.toUInt8 then behindOpener fuel .object t
      else if b == 'n'.toUInt8 then (readWord "null" null (b :: t)).map (·.2)
      else if b == 't'.toUInt8 then (readWord "true" (bool true) (b :: t)).map (·.2)
      else if b == 'f'.toUInt8 then (readWord "false" (bool false) (b :: t)).map (·.2)
      else (readNumber (b :: t)).map (·.2) := by
  by_cases harray : b == '['.toUInt8
  · rw [eq_of_beq harray]
    exact behind_array fuel t
  by_cases hobject : b == '\x7b'.toUInt8
  · rw [eq_of_beq hobject]
    exact behind_object fuel t
  show (readValue (fuel + 1) (b :: t)).map (·.2) = _
  rw [readValue]
  by_cases hquote : b == '"'.toUInt8
  · rw [if_pos hquote, if_pos hquote]
    cases readString t <;> rfl
  · rw [if_neg hquote, if_neg hquote, if_neg harray, if_neg harray, if_neg hobject, if_neg hobject]
    repeat' split
    all_goals rfl

theorem behind_elements (fuel : Nat) (t : Text) :
    behind (.entries .array) (fuel + 1) t =
      (behind .value fuel (skipBlank t)).bind (behindEntry fuel .array) := by
  show (readElements (fuel + 1) t).map (·.2) = ((readValue fuel (skipBlank t)).map (·.2)).bind _
  rw [readElements]
  cases readValue fuel (skipBlank t) with
  | error f => rfl
  | ok r =>
    obtain ⟨e, u⟩ := r
    show Except.map _ _ = behindEntry fuel .array u
    unfold behindEntry
    dsimp only [bind, Except.bind]
    cases skipBlank u with
    | nil => rfl
    | cons c v =>
      show Except.map _ (if c == ']'.toUInt8 then _ else _) = if c == ']'.toUInt8 then _ else _
      split
      · rfl
      split
      · show Except.map _ _ = (readElements fuel v).map _
        cases readElements fuel v <;> rfl
      · rfl

/-- The reader from the value of a member on. -/
theorem behind_member (fuel : Nat) (key w : Text) :
    Except.map (·.2) (do
      let (v, u) ← readValue fuel w
      match skipBlank u with
      | [] => .error .malformed
      | c :: u =>
        if c == '\x7d'.toUInt8 then .ok ([(key, v)], u)
        else if c == ','.toUInt8 then do
          let (ms, u) ← readMembers fuel u
          .ok ((key, v) :: ms, u)
        else .error .malformed) = (behind .value fuel w).bind (behindEntry fuel .object) := by
  show _ = ((readValue fuel w).map (·.2)).bind _
  cases readValue fuel w with
  | error f => rfl
  | ok r =>
    obtain ⟨v, u⟩ := r
    show Except.map _ _ = behindEntry fuel .object u
    unfold behindEntry
    dsimp only [bind, Except.bind]
    cases skipBlank u with
    | nil => rfl
    | cons c u =>
      show Except.map _ (if c == '\x7d'.toUInt8 then _ else _) =
        if c == '\x7d'.toUInt8 then _ else _
      split
      · rfl
      split
      · show Except.map _ _ = (readMembers fuel u).map _
        cases readMembers fuel u <;> rfl
      · rfl

/-- Behind the key and the colon of a member the reader goes on as in an array. -/
theorem behind_members (fuel : Nat) (t : Text) :
    behind (.entries .object) (fuel + 1) t = (Container.object.entry t).bind fun w =>
      (behind .value fuel w).bind (behindEntry fuel .object) := by
  show (readMembers (fuel + 1) t).map (·.2) = _
  rw [readMembers]
  unfold Container.entry
  dsimp only
  cases skipBlank t with
  | nil => rfl
  | cons q t =>
    dsimp only
    split
    · rfl
    cases readString t with
    | error f => rfl
    | ok r =>
      obtain ⟨key, t⟩ := r
      dsimp only [bind, Except.bind]
      cases skipBlank t with
      | nil => rfl
      | cons c t =>
        dsimp only
        split
        · rfl
        exact behind_member fuel key (skipBlank t)

theorem behind_entries (fuel : Nat) (k : Container) (t : Text) :
    behind (.entries k) (fuel + 1) t =
      (k.entry t).bind fun w => (behind .value fuel w).bind (behindEntry fuel k) := by
  cases k with
  | array => exact behind_elements fuel t
  | object => exact behind_members fuel t

/-! ## What is told by the reader -/

/-- What the outcome of reading at a place tells of the text. -/
def Accounts (p : Place) (t : Text) : Except Fault Text → Prop
  | .ok rest => Spans p t rest
  | .error .numberTooLarge => Overflows p t
  | .error .malformed => True

theorem Accounts.imp {q : Place} {r : Except Fault Text} (h : Accounts p t r)
    (hspans : ∀ rest, Spans p t rest → Spans q u rest)
    (hoverflows : Overflows p t → Overflows q u) :
    Accounts q u r := by
  cases r with
  | ok rest => exact hspans rest h
  | error f =>
    cases f with
    | malformed => trivial
    | numberTooLarge => exact hoverflows h

theorem readString_error {f : Fault} (h : readString t = .error f) : f = .malformed := by
  unfold readString at h
  split at h
  · cases h
  · exact (Except.error.inj h).symm

theorem Container.entry_error {f : Fault} (h : k.entry t = .error f) : f = .malformed := by
  unfold Container.entry at h
  cases k with
  | array => cases h
  | object =>
    dsimp only at h
    split at h
    · exact (Except.error.inj h).symm
    split at h
    · exact (Except.error.inj h).symm
    cases hkey : readString _ with
    | error g =>
      rw [hkey] at h
      rw [← Except.error.inj h]
      exact readString_error hkey
    | ok r =>
      rw [hkey] at h
      dsimp only [bind, Except.bind] at h
      split at h
      · exact (Except.error.inj h).symm
      split at h
      · exact (Except.error.inj h).symm
      · cases h

theorem accounts_word {w : Text} (hw : w ∈ Text.ofStrings ["null", "true", "false"]) (j : Json)
    (t : Text) : Accounts .value t ((readWord w j t).map (·.2)) := by
  unfold readWord
  split
  · rename_i hprefix
    obtain ⟨rest, rfl⟩ := List.isPrefixOf_iff_prefix.1 hprefix
    show Spans .value (w ++ rest) ((w ++ rest).drop w.length)
    rw [List.drop_left]
    exact .word hw
  · trivial

theorem accounts_number (t : Text) : Accounts .value t ((readNumber t).map (·.2)) := by
  cases h : readNumber t with
  | ok r => exact .number h
  | error f =>
    cases f with
    | malformed => trivial
    | numberTooLarge => exact .number h

/-- One step of the reader, from the next one. -/
theorem accounts_opener (ih : ∀ t, Accounts (.entries k) t (behind (.entries k) fuel t))
    (t : Text) : Accounts .value (k.opener :: t) (behindOpener fuel k t) := by
  unfold behindOpener
  split
  · trivial
  · rename_i c r hblank
    split
    · rename_i hc
      rw [eq_of_beq hc] at hblank
      exact .empty hblank
    · rename_i hc
      have hc : c ≠ k.closer := fun h => hc (beq_iff_eq.2 h)
      exact (ih (c :: r)).imp (fun _ => .full hblank hc) (.full hblank hc)

theorem accounts_entries (ihv : ∀ t, Accounts .value t (behind .value fuel t))
    (ihe : ∀ t, Accounts (.entries k) t (behind (.entries k) fuel t)) (t : Text) :
    Accounts (.entries k) t (behind (.entries k) (fuel + 1) t) := by
  rw [behind_entries]
  cases hw : k.entry t with
  | error f =>
    rw [Container.entry_error hw]
    trivial
  | ok w =>
    show Accounts _ _ ((behind .value fuel w).bind _)
    have hvalue := ihv w
    revert hvalue
    cases behind .value fuel w with
    | error f =>
      cases f with
      | malformed => exact id
      | numberTooLarge => exact .entry hw
    | ok u =>
      intro hvalue
      show Accounts _ _ (behindEntry fuel k u)
      unfold behindEntry
      split
      · trivial
      · rename_i c v hblank
        split
        · rename_i hc
          rw [eq_of_beq hc] at hblank
          exact .last hw hvalue hblank
        split
        · rename_i hc
          rw [eq_of_beq hc] at hblank
          exact (ihe v).imp (fun _ => .more hw hvalue hblank) (.later hw hvalue hblank)
        · trivial

/-- What is read stands there, and a number that is too large is reached: by induction on the
    fuel, which need not be enough. -/
theorem accounts_behind (p : Place) (fuel : Nat) (t : Text) :
    Accounts p t (behind p fuel t) := by
  induction fuel generalizing p t with
  | zero =>
    cases p with
    | value => cases t <;> trivial
    | entries k => cases k <;> trivial
  | succ fuel ih =>
    cases p with
    | entries k => exact accounts_entries (ih .value) (ih (.entries k)) t
    | value =>
      cases t with
      | nil => trivial
      | cons b t =>
        rw [behind_value]
        split
        · rename_i hb
          rw [eq_of_beq hb]
          cases hs : readString t with
          | ok r => exact .string hs
          | error f =>
            rw [readString_error hs]
            trivial
        split
        · rename_i hb
          rw [eq_of_beq hb]
          exact accounts_opener (ih (.entries .array)) t
        split
        · rename_i hb
          rw [eq_of_beq hb]
          exact accounts_opener (ih (.entries .object)) t
        split
        · exact accounts_word (by decide) ..
        split
        · exact accounts_word (by decide) ..
        split
        · exact accounts_word (by decide) ..
        · exact accounts_number _

/-! ## What is behind is a part of the text -/

theorem skipBlank_suffix (t : Text) : skipBlank t <:+ t := List.dropWhile_suffix _

theorem suffix_of_skipBlank {v : Text} (h : skipBlank t = b :: v) : v <:+ t :=
  (List.suffix_cons b v).trans (h ▸ skipBlank_suffix t)

theorem digits?_suffix {ds : Text} (h : digits? t = some (ds, rest)) : rest <:+ t := by
  unfold digits? at h
  dsimp only at h
  split at h
  · cases h
  · cases h
    exact List.dropWhile_suffix _

theorem fraction?_suffix {ds : Text} (h : fraction? t = some (ds, rest)) : rest <:+ t := by
  unfold fraction? at h
  split at h
  · split at h
    · exact (digits?_suffix h).trans (List.suffix_cons ..)
    · cases h
      exact List.suffix_rfl
  · cases h
    exact List.suffix_rfl

theorem scanSign_suffix (t : Text) : (Numeral.scanSign t).2 <:+ t := by
  unfold Numeral.scanSign
  split
  · exact List.suffix_rfl
  split
  · exact List.suffix_cons ..
  split
  · exact List.suffix_cons ..
  · exact List.suffix_rfl

theorem exponent?_suffix {e : Option (Bool × Text)} (h : exponent? t = some (e, rest)) :
    rest <:+ t := by
  unfold exponent? at h
  split at h
  · split at h
    · obtain ⟨⟨ds, u⟩, hds, h⟩ := Option.map_eq_some_iff.1 h
      cases h
      exact (digits?_suffix hds).trans ((scanSign_suffix _).trans (List.suffix_cons ..))
    · cases h
      exact List.suffix_rfl
  · cases h
    exact List.suffix_rfl

theorem numeral?_suffix {d : Digits} (h : numeral? t = some (d, rest)) : rest <:+ t := by
  -- Behind the whole part come the fraction and the exponent.
  have hbehind (negative : Bool) (whole u : Text)
      (h : ((fraction? u).bind fun f => (exponent? f.2).bind fun e =>
        some (Digits.mk negative whole f.1 e.1, e.2)) = some (d, rest)) : rest <:+ u := by
    obtain ⟨f, hf, h⟩ := Option.bind_eq_some_iff.1 h
    obtain ⟨e, he, h⟩ := Option.bind_eq_some_iff.1 h
    cases h
    exact (exponent?_suffix he).trans (fraction?_suffix hf)
  have hwhole (negative : Bool) (b : UInt8) (r : Text)
      (h : (if b == '0'.toUInt8 then some ([b], r) else digits? (b :: r)).bind (fun w =>
        (fraction? w.2).bind fun f => (exponent? f.2).bind fun e =>
          some (Digits.mk negative w.1 f.1 e.1, e.2)) = some (d, rest)) : rest <:+ b :: r := by
    obtain ⟨⟨whole, u⟩, hwhole, h⟩ := Option.bind_eq_some_iff.1 h
    refine (hbehind _ _ _ h).trans ?_
    split at hwhole
    · cases hwhole
      exact List.suffix_cons ..
    · exact digits?_suffix hwhole
  cases t with
  | nil => cases h
  | cons b t =>
    unfold numeral? at h
    dsimp only at h
    by_cases hminus : b == '-'.toUInt8
    · simp only [hminus, if_true] at h
      refine List.IsSuffix.trans ?_ (List.suffix_cons b t)
      cases t with
      | nil => cases h
      | cons c t =>
        refine hwhole true c t ?_
        rw [← h]
        dsimp only
        split <;> rfl
    · simp only [hminus, Bool.false_eq_true, if_false] at h
      refine hwhole false b t ?_
      rw [← h]
      split <;> rfl

theorem readNumber_suffix (h : readNumber t = .ok (j, rest)) : rest <:+ t := by
  unfold readNumber at h
  split at h
  · cases h
  · rename_i d u hd
    cases hv : d.value with
    | error f =>
      rw [hv] at h
      cases h
    | ok v =>
      rw [hv] at h
      cases h
      exact numeral?_suffix hd

theorem hex4?_suffix {n : Nat} (h : hex4? t = some (n, rest)) : rest <:+ t := by
  match t, h with
  | a :: b :: c :: d :: t, h =>
    rw [hex4?] at h
    obtain ⟨va, -, h⟩ := Option.bind_eq_some_iff.1 h
    obtain ⟨vb, -, h⟩ := Option.bind_eq_some_iff.1 h
    obtain ⟨vc, -, h⟩ := Option.bind_eq_some_iff.1 h
    obtain ⟨vd, -, h⟩ := Option.bind_eq_some_iff.1 h
    cases h
    exact ⟨[a, b, c, d], rfl⟩

theorem escape?_suffix {bytes : Text} (h : escape? t = some (bytes, rest)) : rest <:+ t := by
  cases t with
  | nil => cases h
  | cons b t =>
    rw [escape?] at h
    refine List.IsSuffix.trans ?_ (List.suffix_cons b t)
    split at h
    · obtain ⟨⟨n, u⟩, hn, h⟩ := Option.bind_eq_some_iff.1 h
      refine List.IsSuffix.trans ?_ (hex4?_suffix hn)
      dsimp only at h
      split at h
      · split at h
        · rename_i s x u
          split at h
          · obtain ⟨⟨m, v⟩, hm, h⟩ := Option.bind_eq_some_iff.1 h
            dsimp only at h
            split at h
            · rw [Option.some.injEq, Prod.mk.injEq] at h
              rw [← h.2]
              exact (hex4?_suffix hm).trans (List.drop_suffix 2 (s :: x :: u))
            · cases h
          · cases h
        · cases h
      · split at h
        · cases h
        · cases h
          exact List.suffix_rfl
    · obtain ⟨c, -, h⟩ := Option.map_eq_some_iff.1 h
      cases h
      exact List.suffix_rfl

theorem stringFrom_suffix {done s : Text} (h : stringFrom fuel done t = some (s, rest)) :
    rest <:+ t := by
  induction fuel generalizing done t with
  | zero =>
    rw [stringFrom] at h
    cases h
  | succ fuel ih =>
    cases t with
    | nil => cases h
    | cons b t =>
      rw [stringFrom] at h
      split at h
      · cases h
        exact List.suffix_cons ..
      split at h
      · obtain ⟨⟨bytes, u⟩, hbytes, h⟩ := Option.bind_eq_some_iff.1 h
        exact (ih h).trans ((escape?_suffix hbytes).trans (List.suffix_cons ..))
      split at h
      · cases h
      · obtain ⟨n, -, h⟩ := Option.bind_eq_some_iff.1 h
        exact (ih h).trans (List.drop_suffix ..)

theorem readString_suffix {s : Text} (h : readString t = .ok (s, rest)) : rest <:+ t := by
  unfold readString at h
  split at h
  · rename_i hr
    cases h
    exact stringFrom_suffix hr
  · cases h

theorem Container.entry_suffix {w : Text} (h : k.entry t = .ok w) : w <:+ t := by
  unfold Container.entry at h
  cases k with
  | array =>
    cases h
    exact skipBlank_suffix t
  | object =>
    dsimp only at h
    split at h
    · cases h
    rename_i hblank
    refine List.IsSuffix.trans ?_ (suffix_of_skipBlank hblank)
    split at h
    · cases h
    cases hkey : readString _ with
    | error g =>
      rw [hkey] at h
      cases h
    | ok r =>
      rw [hkey] at h
      dsimp only [bind, Except.bind] at h
      split at h
      · cases h
      rename_i hblank
      split at h
      · cases h
      · cases h
        exact (skipBlank_suffix _).trans
          ((suffix_of_skipBlank hblank).trans (readString_suffix hkey))

theorem Spans.suffix (h : Spans p t rest) : rest <:+ t := by
  induction h with
  | string hs => exact (readString_suffix hs).trans (List.suffix_cons ..)
  | word => exact List.suffix_append ..
  | number hn => exact readNumber_suffix hn
  | empty hblank => exact (suffix_of_skipBlank hblank).trans (List.suffix_cons ..)
  | full hblank _ _ ih =>
    rw [← hblank] at ih
    exact (ih.trans (skipBlank_suffix _)).trans (List.suffix_cons ..)
  | last hw _ hblank ih =>
    exact (suffix_of_skipBlank hblank).trans (ih.trans (Container.entry_suffix hw))
  | more hw _ hblank _ ihv ihe =>
    exact ihe.trans ((suffix_of_skipBlank hblank).trans (ihv.trans (Container.entry_suffix hw)))

/-! ## Fuel that is enough -/

/-- Two units of fuel for each byte are enough, and the entries of a container take one more. -/
def Place.need (p : Place) (t : Text) : Nat :=
  match p with
  | value => 2 * t.length
  | entries _ => 2 * t.length + 1

theorem readWord_append (w : Text) (j : Json) (rest : Text) :
    readWord w j (w ++ rest) = .ok (j, rest) := by
  unfold readWord
  rw [if_pos (List.isPrefixOf_iff_prefix.2 (List.prefix_append ..)), List.drop_left]

/-- A number does not begin like another value. -/
theorem behind_number (h : readNumber t ≠ .error .malformed) (fuel : Nat) :
    behind .value (fuel + 1) t = (readNumber t).map (·.2) := by
  cases t with
  | nil => exact absurd rfl h
  | cons b t =>
    have hother : ∀ c ∈ ['"', '[', '\x7b', 'n', 't', 'f'].map Char.toUInt8, ¬ b == c := by
      intro c hc hb
      rw [eq_of_beq hb] at h
      simp only [List.map_cons, List.map_nil, List.mem_cons, List.not_mem_nil, or_false] at hc
      rcases hc with rfl | rfl | rfl | rfl | rfl | rfl <;> exact h rfl
    simp only [List.map_cons, List.map_nil, List.forall_mem_cons] at hother
    obtain ⟨h1, h2, h3, h4, h5, h6, -⟩ := hother
    rw [behind_value, if_neg h1, if_neg h2, if_neg h3, if_neg h4, if_neg h5, if_neg h6]

theorem behind_opener (fuel : Nat) (k : Container) (t : Text) :
    behind .value (fuel + 1) (k.opener :: t) = behindOpener fuel k t := by
  rw [behind_value]
  cases k <;> rfl

theorem behind_word {w : Text} (hw : w ∈ Text.ofStrings ["null", "true", "false"]) (fuel : Nat)
    (rest : Text) : behind .value (fuel + 1) (w ++ rest) = .ok rest := by
  have hword (w : Text) (j : Json) : (readWord w j (w ++ rest)).map (·.2) = .ok rest := by
    rw [readWord_append]
    rfl
  simp only [Text.ofStrings, List.map_cons, List.map_nil, List.mem_cons, List.not_mem_nil,
    or_false] at hw
  rcases hw with rfl | rfl | rfl
  · exact hword "null" null
  · exact hword "true" (bool true)
  · exact hword "false" (bool false)

theorem length_lt_of_skipBlank {v : Text} (h : skipBlank t = b :: v) : v.length < t.length := by
  have := (skipBlank_suffix t).length_le
  rw [h] at this
  exact this

theorem behind_entries_of {w : Text} (hw : k.entry t = .ok w)
    (hu : behind .value fuel w = .ok u) :
    behind (.entries k) (fuel + 1) t = behindEntry fuel k u := by
  rw [behind_entries, hw]
  show (behind .value fuel w).bind _ = _
  rw [hu]
  rfl

theorem behindOpener_of {r : Text} (h : skipBlank t = b :: r) (hb : b ≠ k.closer) :
    behindOpener fuel k t = behind (.entries k) fuel (b :: r) := by
  rw [behindOpener, h]
  exact if_neg (mt beq_iff_eq.1 hb)

theorem behindEntry_comma {v : Text} (h : skipBlank u = ','.toUInt8 :: v) :
    behindEntry fuel k u = behind (.entries k) fuel v := by
  rw [behindEntry, h]
  cases k <;> rfl

/-- With fuel enough what stands there is read. -/
theorem Spans.behind_eq (h : Spans p t rest) (hfuel : p.need t < fuel) :
    behind p fuel t = .ok rest := by
  induction fuel generalizing p t rest with
  | zero => cases hfuel
  | succ fuel ih =>
    cases h with
    | string hs =>
      rw [behind_value, if_pos (beq_self_eq_true _), hs]
      rfl
    | word hw => exact behind_word hw fuel rest
    | number hn =>
      rw [behind_number (by rw [hn]; nofun), hn]
      rfl
    | empty hblank =>
      rw [behind_opener, behindOpener, hblank]
      exact if_pos (beq_self_eq_true _)
    | full hblank hb hentries =>
      have hshorter := length_lt_of_skipBlank hblank
      rw [behind_opener, behindOpener_of hblank hb]
      exact ih hentries (by simp only [Place.need, List.length_cons] at hfuel ⊢; omega)
    | last hw hvalue hblank =>
      have hshorter := (Container.entry_suffix hw).length_le
      have hu := ih hvalue (by simp only [Place.need] at hfuel ⊢; omega)
      rw [behind_entries_of hw hu, behindEntry, hblank]
      exact if_pos (beq_self_eq_true _)
    | more hw hvalue hblank hentries =>
      have hw' := (Container.entry_suffix hw).length_le
      have hu' := hvalue.suffix.length_le
      have hv := length_lt_of_skipBlank hblank
      have hu := ih hvalue (by simp only [Place.need] at hfuel ⊢; omega)
      rw [behind_entries_of hw hu, behindEntry_comma hblank]
      exact ih hentries (by simp only [Place.need] at hfuel ⊢; omega)

/-- With fuel enough a number that is too large is reached. -/
theorem Overflows.behind_eq (h : Overflows p t) (hfuel : p.need t < fuel) :
    behind p fuel t = .error .numberTooLarge := by
  induction fuel generalizing p t with
  | zero => cases hfuel
  | succ fuel ih =>
    cases h with
    | number hn =>
      rw [behind_number (by rw [hn]; nofun), hn]
      rfl
    | full hblank hb hentries =>
      have hshorter := length_lt_of_skipBlank hblank
      rw [behind_opener, behindOpener_of hblank hb]
      exact ih hentries (by simp only [Place.need, List.length_cons] at hfuel ⊢; omega)
    | entry hw hvalue =>
      have hshorter := (Container.entry_suffix hw).length_le
      rw [behind_entries, hw]
      show (behind .value fuel _).bind _ = _
      rw [ih hvalue (by simp only [Place.need] at hfuel ⊢; omega)]
      rfl
    | later hw hvalue hblank hentries =>
      have hw' := (Container.entry_suffix hw).length_le
      have hu' := hvalue.suffix.length_le
      have hv := length_lt_of_skipBlank hblank
      have hu : behind .value fuel _ = _ :=
        hvalue.behind_eq (by simp only [Place.need] at hfuel ⊢; omega)
      rw [behind_entries_of hw hu, behindEntry_comma hblank]
      exact ih hentries (by simp only [Place.need] at hfuel ⊢; omega)

theorem behind_eq_ok_iff (hfuel : p.need t < fuel) :
    behind p fuel t = .ok rest ↔ Spans p t rest := by
  refine ⟨fun h => ?_, fun h => h.behind_eq hfuel⟩
  have haccounts := accounts_behind p fuel t
  rwa [h] at haccounts

theorem behind_eq_numberTooLarge_iff (hfuel : p.need t < fuel) :
    behind p fuel t = .error .numberTooLarge ↔ Overflows p t := by
  refine ⟨fun h => ?_, fun h => h.behind_eq hfuel⟩
  have haccounts := accounts_behind p fuel t
  rwa [h] at haccounts

/-! ## Texts that are one value -/

/-- Where the value of a text starts. -/
def start (t : Text) : Text := skipBlank (skipMark t)

/-- The text is one value, with nothing but space around it up to the end or a zero byte. -/
def IsValue (t : Text) : Prop := ∃ rest, Spans .value (start t) rest ∧ isOver (skipBlank rest)

theorem need_start (t : Text) : Place.value.need (start t) < 2 * (skipMark t).length + 2 := by
  have := (skipBlank_suffix (skipMark t)).length_le
  show 2 * (skipBlank (skipMark t)).length < _
  omega

/-- Exactly the texts that are one value are read. -/
theorem exists_parse_iff : (∃ j, parse t = .ok j) ↔ IsValue t := by
  simp only [IsValue, ← behind_eq_ok_iff (need_start t)]
  unfold parse behind start
  dsimp only
  cases readValue (2 * (skipMark t).length + 2) (skipBlank (skipMark t)) with
  | error f =>
    constructor
    · rintro ⟨j, h⟩
      cases h
    · rintro ⟨rest, h, -⟩
      cases h
  | ok r =>
    obtain ⟨j, rest⟩ := r
    dsimp only [bind, Except.bind]
    by_cases hrest : isOver (skipBlank rest)
    · rw [if_pos hrest]
      exact iff_of_true ⟨j, rfl⟩ ⟨rest, rfl, hrest⟩
    · rw [if_neg hrest]
      refine iff_of_false nofun ?_
      rintro ⟨rest', h, hrest'⟩
      cases h
      exact hrest hrest'

/-- A text is refused for a number exactly if all in front of the number is well. -/
theorem parse_eq_numberTooLarge_iff :
    parse t = .error .numberTooLarge ↔ Overflows .value (start t) := by
  rw [← behind_eq_numberTooLarge_iff (need_start t)]
  unfold parse behind start
  dsimp only
  cases readValue (2 * (skipMark t).length + 2) (skipBlank (skipMark t)) with
  | error f =>
    show Except.error f = _ ↔ Except.error f = _
    rw [Except.error.injEq, Except.error.injEq]
  | ok r =>
    refine iff_of_false ?_ nofun
    dsimp only [bind, Except.bind]
    split <;> nofun

end Json

end Reasoning
