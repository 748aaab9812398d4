/-
  What a batch writes.

  * `CommandLine.Faulty`: a line that is no request, `CommandLine.Asks`: a line that is one;
  * `CommandLine.numbered`: the lines of an input that are not blank, with their numbers;
  * `CommandLine.answerBatch_eq`: every line is answered as if it stood alone;
  * `Engine.print?_reason_eq_none_iff`: only a decision about an attribute whose description is cut
    inside a symbol cannot be written;
  * `CommandLine.Breaks`: a line whose answer cannot be written, because of such a decision or of
    the words for what is wrong with it;
  * `CommandLine.batch_isolates`: what the command writes and the code it exits with.
-/
import Reasoning.CommandLine.Run
import Reasoning.Proofs.Encoding.Classical
import Reasoning.Proofs.Encoding.Decision
import Reasoning.Proofs.Encoding.Domain
import Reasoning.Proofs.Encoding.Modal
import Reasoning.Proofs.Encoding.Probability
import Reasoning.Proofs.Encoding.Quantum
import Reasoning.Proofs.Footprint

namespace Reasoning

/-! ## Answers that can be written -/

namespace Engine

variable {e : Engine} {mode : Mode} {input : Text} {context : Json}

/-- Engines other than that of decisions give answers that can be written. -/
theorem printable_reason (he : e.registry.Printable) (hi : input.Valid) (hc : context.Printable)
    (hmode : mode ≠ .decision) : (e.reason mode input context).1.Printable := by
  cases mode with
  | classical => exact Classical.printable_reason he e.config e.metrics hi hc
  | modal => exact Modal.printable_reason he e.config e.metrics hi hc
  | probabilistic => exact Probability.printable_reason he e.metrics hi hc
  | quantum => exact Quantum.printable_reason he e.config e.metrics hi hc
  | decision => exact absurd rfl hmode
  | crossDomain => exact CrossDomainSolution.printable_reason he e.config e.metrics hi hc

theorem print?_reason_eq_none_iff (he : e.registry.Printable) (hi : input.Valid)
    (hc : context.Printable) :
    (e.reason mode input context).1.toJson.print? = none ↔ mode = .decision ∧
      ∃ o ∈ Decision.choices e.registry e.config input context, Decision.CutsSymbol o := by
  rw [← Option.not_isSome_iff_eq_none, ← Json.printable_iff]
  by_cases hmode : mode = .decision
  · subst hmode
    rw [and_iff_right rfl]
    refine (not_congr (Decision.printable_reason_iff he e.config e.metrics hi hc)).trans ?_
    simp
  · exact iff_of_false (not_not_intro (printable_reason he hi hc hmode).toJson) fun h => hmode h.1

end Engine

namespace CommandLine

/-! ## Requests -/

/-- The member of a name, if there is one, is a text. -/
def HasText (j : Json) (key : Text) : Prop := ∀ v, j.member? key = some v → ∃ s, v = .string s

/-- A line that is no request: it is not JSON, no object, has a mode or an input that is no text,
    or names no mode. -/
inductive Faulty (t : Text) : Prop
  | unreadable : (∀ j, Json.parse t ≠ .ok j) → Faulty t
  | notAnObject {j} : Json.parse t = .ok j → j.isObject = false → Faulty t
  | notAText {j} (key : Text) : Json.parse t = .ok j → key = "mode" ∨ key = "input" →
      ¬ HasText j key → Faulty t
  | unknownMode {j} : Json.parse t = .ok j →
      Mode.ofName? (j.textField "mode" "classical") = none → Faulty t

/-- The line is an object that asks about an input and a context in a mode. -/
structure Asks (t : Text) (r : BatchRequest) : Prop where
  asks : ∃ j, Json.parse t = .ok j ∧ j.isObject = true ∧ HasText j "mode" ∧ HasText j "input" ∧
    Mode.ofName? (j.textField "mode" "classical") = some r.mode ∧
    r.input = j.textField "input" [] ∧ r.context = (j.member? "context").getD (.object [])

variable {t : Text} {r : BatchRequest}

theorem Asks.not_faulty (h : Asks t r) : ¬ Faulty t := by
  obtain ⟨j, hj, hobject, hmode, hinput, hname, -, -⟩ := h
  intro hfaulty
  cases hfaulty with
  | unreadable hno => exact hno j hj
  | notAnObject hi hno =>
    rw [hj] at hi
    cases hi
    rw [hobject] at hno
    cases hno
  | notAText key hi hkey hno =>
    rw [hj] at hi
    cases hi
    rcases hkey with rfl | rfl
    · exact hno hmode
    · exact hno hinput
  | unknownMode hi hno =>
    rw [hj] at hi
    cases hi
    rw [hname] at hno
    cases hno

/-- A line asks for one thing. -/
theorem Asks.unique {r' : BatchRequest} (h : Asks t r) (h' : Asks t r') : r = r' := by
  obtain ⟨j, hj, -, -, -, hmode, hinput, hcontext⟩ := h
  obtain ⟨j', hj', -, -, -, hmode', hinput', hcontext'⟩ := h'
  obtain rfl : j = j' := Except.ok.inj (hj.symm.trans hj')
  cases r
  cases r'
  congr
  · exact Option.some.inj (hmode.symm.trans hmode')
  · exact hinput.trans hinput'.symm
  · exact hcontext.trans hcontext'.symm

/-- Whatever a line asks about, it is valid. -/
theorem Asks.printable (h : Asks t r) : r.input.Valid ∧ r.context.Printable := by
  obtain ⟨j, hj, -, -, -, -, hinput, hcontext⟩ := h
  have hj := Json.printable_of_parse hj
  rw [hinput, hcontext]
  refine ⟨hj.textField "input" .nil, ?_⟩
  cases hmember : j.member? "context" with
  | none => exact Json.printable_object.2 (List.forall_mem_nil _)
  | some v => exact hj.member? hmember

/-- The line asks for a decision, and describing a choice cuts a symbol. -/
def AsksCut (e : Engine) (t : Text) : Prop :=
  ∃ r, Asks t r ∧ r.mode = .decision ∧
    ∃ o ∈ Decision.choices e.registry e.config r.input r.context, Decision.CutsSymbol o

/-- The answer to the line cannot be written: the line asks for a decision in which a symbol is
    cut, or the words for what is wrong with it are not valid UTF-8. -/
inductive Breaks (w : Json.Wording) (e : Engine) (t : Text) : Prop
  | cut : AsksCut e t → Breaks w e t
  | words {x} : BatchRequest.ofLine t = .error (.exception x) → ¬ (w x).Valid → Breaks w e t

theorem textMember_cases (j : Json) (key fallback : Text) :
    textMember j key fallback = .ok (j.textField key fallback) ∧ HasText j key ∨
      (∃ v, textMember j key fallback = .error (.exception (.notAText v))) ∧ ¬ HasText j key := by
  unfold textMember Json.textField HasText
  cases hkey : j.member? key with
  | none => exact .inl ⟨rfl, fun v hv => nomatch hv⟩
  | some v =>
    cases v with
    | string s => exact .inl ⟨rfl, fun v hv => ⟨s, (Option.some.inj hv).symm⟩⟩
    | _ =>
      refine .inr ⟨⟨_, rfl⟩, fun h => ?_⟩
      obtain ⟨s, hs⟩ := h _ rfl
      cases hs

/-- A line is a request, or it is not and there is something wrong with it. -/
theorem ofLine_cases (t : Text) :
    (∃ r, BatchRequest.ofLine t = .ok r ∧ Asks t r) ∨
      ∃ f, BatchRequest.ofLine t = .error f ∧ Faulty t := by
  unfold BatchRequest.ofLine
  cases hj : Json.parse t with
  | error f => exact .inr ⟨_, rfl, .unreadable fun j h => by rw [hj] at h; cases h⟩
  | ok j =>
    dsimp only
    unfold BatchRequest.ofJson
    cases hobject : j.isObject with
    | false => exact .inr ⟨_, rfl, .notAnObject hj hobject⟩
    | true =>
      rcases textMember_cases j "mode" "classical" with ⟨hmode, hm⟩ | ⟨⟨v, hmode⟩, hno⟩
      · cases hname : Mode.ofName? (j.textField "mode" "classical") with
        | none =>
          refine .inr ⟨.unknownMode, ?_, .unknownMode hj hname⟩
          simp [hmode, hname, bind, Except.bind]
          rfl
        | some mode =>
          rcases textMember_cases j "input" [] with ⟨hinput, hi⟩ | ⟨⟨v, hinput⟩, hno⟩
          · refine .inl ⟨⟨mode, _, _⟩, ?_, ⟨j, hj, hobject, hm, hi, hname, rfl, rfl⟩⟩
            simp [hmode, hname, hinput, bind, Except.bind]
            rfl
          · refine .inr ⟨.exception (.notAText v), ?_, .notAText "input" hj (.inr rfl) hno⟩
            simp [hmode, hname, hinput, bind, Except.bind]
      · refine .inr ⟨.exception (.notAText v), ?_, .notAText "mode" hj (.inl rfl) hno⟩
        simp [hmode, bind, Except.bind]

/-! ## Answers -/

/-- The lines of an input that are not blank, with their numbers. -/
def numbered (input : Text) : List (Text × Nat) :=
  ((textLines input).zipIdx 1).filter fun l => !l.1.trim.isEmpty

/-- The answer to a line. -/
def answerTo (e : Engine) (l : Text × Nat) : LineAnswer := ⟨l.2, (answerLine e l.1).1⟩

section
variable {P : Prop} {e e' : Engine}

/-- A line is answered the same by engines that know the same, and leaves them like that. -/
theorem answerLine_alike (h : Engine.Alike P e e') (t : Text) :
    (answerLine e' t).1 = (answerLine e t).1 ∧ Engine.Alike P e (answerLine e' t).2 := by
  unfold answerLine
  cases BatchRequest.ofLine t with
  | error f => exact ⟨rfl, h⟩
  | ok r => exact ⟨congrArg Except.ok (h.result_eq ..), h.config, h.registry, h.mappings⟩

theorem answerLines_eq (h : Engine.Alike P e e') (ts : List Text) (n : Nat) :
    (answerLines e' n ts).1 =
      ((ts.zipIdx n).filter fun l => !l.1.trim.isEmpty).map (answerTo e) := by
  induction ts generalizing e' n with
  | nil => rfl
  | cons t ts ih =>
    rw [answerLines, List.zipIdx_cons]
    split
    · rename_i hblank
      rw [ih h, List.filter_cons_of_neg (by simp [hblank])]
    · rename_i hblank
      obtain ⟨hfirst, hrest⟩ := answerLine_alike h t
      dsimp only
      rw [ih hrest, hfirst, List.filter_cons_of_pos (by simp [hblank]), List.map_cons, answerTo]

/-- Every line is answered as if it stood alone. -/
theorem answerBatch_eq (e : Engine) (input : Text) :
    (answerBatch e input).1 = (numbered input).map (answerTo e) :=
  answerLines_eq (.refl True e) (textLines input) 1

end

section
variable {e : Engine} {l : Text × Nat}

theorem answerTo_of_not_faulty (h : ¬ Faulty l.1) :
    ∃ r, Asks l.1 r ∧ answerTo e l = ⟨l.2, .ok (e.reason r.mode r.input r.context).1⟩ := by
  rcases ofLine_cases l.1 with ⟨r, hr, hasks⟩ | ⟨f, -, hfaulty⟩
  · exact ⟨r, hasks, by rw [answerTo, answerLine, hr]⟩
  · exact absurd hfaulty h

theorem answerTo_of_faulty (h : Faulty l.1) :
    ∃ f, BatchRequest.ofLine l.1 = .error f ∧ answerTo e l = ⟨l.2, .error f⟩ := by
  rcases ofLine_cases l.1 with ⟨r, -, hasks⟩ | ⟨f, hf, -⟩
  · exact absurd h hasks.not_faulty
  · exact ⟨f, hf, by rw [answerTo, answerLine, hf]⟩

theorem failed_answerTo : (answerTo e l).failed = true ↔ Faulty l.1 := by
  constructor
  · intro h
    by_contra hno
    obtain ⟨r, -, hr⟩ := answerTo_of_not_faulty (e := e) hno
    rw [hr] at h
    cases h
  · intro h
    obtain ⟨f, -, hf⟩ := answerTo_of_faulty (e := e) h
    rw [hf]
    rfl

end

section
variable {w : Json.Wording}

theorem toJson_error (n : Nat) (f : LineFault) :
    (LineAnswer.mk n (.error f)).toJson w =
      .object [("error", .string (f.message w)), ("line", .int n)] := rfl

/-- What is wrong with a line can be written if the words for it are valid. -/
theorem isSome_print?_error (n : Nat) (f : LineFault) :
    ((LineAnswer.mk n (.error f)).toJson w).print?.isSome ↔ (f.message w).Valid := by
  have hkeys : Text.isUtf8 "error" ∧ Text.isUtf8 "line" := by decide
  rw [toJson_error, Json.isSome_print?_iff, Text.valid_iff]
  simp [Json.strings, Json.memberStrings, hkeys]

end

/-! ## Writing -/

/-- What is written of the answer to a line, if it can be written. -/
def written? (w : Json.Wording) (e : Engine) (l : Text × Nat) : Option Text :=
  ((answerTo e l).toJson w).print?

/-- What is warned of with a line. -/
def warned (w : Json.Wording) (e : Engine) (l : Text × Nat) : List Text := (answerTo e l).warnings w

/-- Answers that can be written are written, each on a line of its own, before the others. -/
theorem writeAnswers_append {w : Json.Wording} {code : Nat} {written : Text} {warned ts : List Text}
    {as rest : List LineAnswer} (h : as.map (fun a => (a.toJson w).print?) = ts.map some) :
    writeAnswers w code written warned (as ++ rest) =
      writeAnswers w code (written ++ ts.flatMap fun t => line [t])
        (warned ++ as.flatMap (LineAnswer.warnings w)) rest := by
  induction as generalizing written warned ts with
  | nil =>
    rw [List.map_nil, eq_comm, List.map_eq_nil_iff] at h
    rw [h, List.nil_append, List.flatMap_nil, List.flatMap_nil, List.append_nil, List.append_nil]
  | cons a as ih =>
    cases ts with
    | nil => cases h
    | cons t ts =>
      rw [List.map_cons, List.map_cons, List.cons.injEq] at h
      rw [List.cons_append, writeAnswers, h.1]
      dsimp only
      rw [ih h.2, List.flatMap_cons, List.flatMap_cons, List.append_assoc, List.append_assoc]

section
variable {w : Json.Wording} {e : Engine} {lines : List (Text × Nat)}

/-- The texts of answers that can be written. -/
theorem exists_written (h : ∀ l ∈ lines, written? w e l ≠ none) :
    ∃ ts : List Text, lines.map (written? w e) = ts.map some ∧ ∀ t ∈ ts, t.OneLine := by
  induction lines with
  | nil => exact ⟨[], rfl, List.forall_mem_nil _⟩
  | cons l lines ih =>
    obtain ⟨t, ht⟩ := Option.ne_none_iff_exists'.1 (h l (List.mem_cons_self ..))
    obtain ⟨ts, hts, hone⟩ := ih fun l hl => h l (List.mem_cons_of_mem _ hl)
    exact ⟨t :: ts, by rw [List.map_cons, ht, hts, List.map_cons],
      List.forall_mem_cons.2 ⟨Json.oneLine_print? ht, hone⟩⟩

theorem batchCode_answerTo :
    ((∃ l ∈ lines, Faulty l.1) → batchCode (lines.map (answerTo e)) = 2) ∧
      ((∀ l ∈ lines, ¬ Faulty l.1) → batchCode (lines.map (answerTo e)) = 0) := by
  unfold batchCode
  rw [List.any_map]
  constructor
  · rintro ⟨l, hl, hfaulty⟩
    exact if_pos (List.any_eq_true.2 ⟨l, hl, failed_answerTo.2 hfaulty⟩)
  · intro h
    refine if_neg fun hany => ?_
    obtain ⟨l, hl, hfailed⟩ := List.any_eq_true.1 hany
    exact h l hl (failed_answerTo.1 hfailed)

/-- The answer to a faulty line is an object with the number of the line and what is wrong, and the
    line is warned of. -/
theorem written?_of_faulty {l : Text × Nat} (h : Faulty l.1) :
    ∃ f, BatchRequest.ofLine l.1 = .error f ∧
      written? w e l =
        Json.print? (.object [("error", .string (f.message w)), ("line", .int l.2)]) ∧
      warned w e l = [Text.ofString "[batch] warning: line " ++ Text.ofNat l.2 ++
        Text.ofString ": " ++ f.message w] := by
  obtain ⟨f, hf, hanswer⟩ := answerTo_of_faulty (e := e) h
  refine ⟨f, hf, ?_, ?_⟩
  · rw [written?, hanswer, toJson_error]
  · rw [warned, hanswer, LineAnswer.warnings]

theorem written?_of_not_faulty {l : Text × Nat} (h : ¬ Faulty l.1) :
    ∃ r, Asks l.1 r ∧ written? w e l = (e.reason r.mode r.input r.context).1.toJson.print? ∧
      warned w e l = [] := by
  obtain ⟨r, hr, hanswer⟩ := answerTo_of_not_faulty (e := e) h
  refine ⟨r, hr, ?_, ?_⟩
  · rw [written?, hanswer, LineAnswer.toJson]
  · rw [warned, hanswer, LineAnswer.warnings]

theorem written?_eq_none_of_faulty {l : Text × Nat} (h : Faulty l.1) :
    written? w e l = none ↔
      ∃ x, BatchRequest.ofLine l.1 = .error (.exception x) ∧ ¬ (w x).Valid := by
  obtain ⟨f, hf, hanswer⟩ := answerTo_of_faulty (e := e) h
  rw [written?, hanswer, ← Option.not_isSome_iff_eq_none, isSome_print?_error, hf]
  cases f with
  | exception x => simp [LineFault.message]
  | unknownMode =>
    have hvalid : Text.Valid "unknown mode" := by decide
    exact iff_of_false (not_not_intro hvalid) (by simp)

/-- Which answers cannot be written. -/
theorem written?_eq_none_iff (he : e.registry.Printable) {l : Text × Nat} :
    written? w e l = none ↔ Breaks w e l.1 := by
  by_cases hfaulty : Faulty l.1
  · rw [written?_eq_none_of_faulty hfaulty]
    constructor
    · rintro ⟨x, hx, hw⟩
      exact .words hx hw
    · intro h
      cases h with
      | cut h =>
        obtain ⟨r, hr, -⟩ := h
        exact absurd hfaulty hr.not_faulty
      | words hx hw => exact ⟨_, hx, hw⟩
  · obtain ⟨r, hr, hwritten, -⟩ := written?_of_not_faulty (w := w) (e := e) hfaulty
    rw [hwritten, Engine.print?_reason_eq_none_iff he hr.printable.1 hr.printable.2]
    refine ⟨fun h => .cut ⟨r, hr, h⟩, fun h => ?_⟩
    cases h with
    | cut h =>
      obtain ⟨r', hr', h⟩ := h
      rwa [hr.unique hr']
    | words hx _ =>
      rcases ofLine_cases l.1 with ⟨r', hr', -⟩ | ⟨f, -, hf⟩
      · rw [hr'] at hx
        cases hx
      · exact absurd hf hfaulty

variable {input : Text}

/-- Answers that can all be written are the lines of the output. -/
theorem batch_of_written (h : ∀ l ∈ numbered input, written? w e l ≠ none) :
    (textLines (batch w e input).output).map some = (numbered input).map (written? w e) ∧
      (batch w e input).errors = [] ∧
      (batch w e input).warnings = (numbered input).flatMap (warned w e) ∧
      ((∃ l ∈ numbered input, Faulty l.1) → (batch w e input).code = 2) ∧
      ((∀ l ∈ numbered input, ¬ Faulty l.1) → (batch w e input).code = 0) := by
  obtain ⟨ts, hts, hone⟩ := exists_written h
  have hwrite (code : Nat) : writeAnswers w code [] [] ((numbered input).map (answerTo e)) =
      ⟨code, ts.flatMap fun t => line [t], [], (numbered input).flatMap (warned w e)⟩ := by
    rw [← List.append_nil ((numbered input).map _),
      writeAnswers_append ((List.map_map ..).trans hts), List.flatMap_map, List.nil_append,
      List.nil_append, writeAnswers]
    rfl
  unfold batch
  rw [answerBatch_eq]
  dsimp only
  rw [hwrite]
  exact ⟨by rw [textLines_flatMap_line hone, hts], rfl, rfl, batchCode_answerTo⟩

/-- A batch ends in front of the first answer that cannot be written. -/
theorem batch_of_unwritten {before after : List (Text × Nat)} {l : Text × Nat}
    (hlines : numbered input = before ++ l :: after)
    (hbefore : ∀ b ∈ before, written? w e b ≠ none) (hl : written? w e l = none) :
    (textLines (batch w e input).output).map some = before.map (written? w e) ∧
      (batch w e input).errors =
        line ["Error: invalid JSON: ", w (.unprintable ((answerTo e l).toJson w))] ∧
      (batch w e input).warnings = (before ++ [l]).flatMap (warned w e) ∧
      (batch w e input).code = 1 := by
  obtain ⟨ts, hts, hone⟩ := exists_written hbefore
  unfold batch
  rw [answerBatch_eq]
  dsimp only
  rw [hlines, List.map_append, writeAnswers_append ((List.map_map ..).trans hts), List.map_cons,
    writeAnswers, show ((answerTo e l).toJson w).print? = none from hl, List.nil_append,
    List.nil_append, List.flatMap_map]
  refine ⟨by rw [Outcome.invalidJson, textLines_flatMap_line hone, hts], rfl, ?_, rfl⟩
  rw [List.flatMap_append, List.flatMap_singleton]
  rfl

end

/-- **A batch is answered line by line.**  A line that is no request is answered with its number
    and what is wrong with it, any other line with what the engine answers to the request alone.
    These answers are the lines that are written, and the code tells whether a line was faulty.
    Only two kinds of lines have answers that cannot be written: those that ask for a decision in
    which the description of a choice is cut inside a symbol, and those whose fault is put into
    words that are not valid UTF-8.  The batch ends in front of the first such answer. -/
theorem batch_isolates (w : Json.Wording) (c : Config) (input : Text) :
    let e := Engine.seeded c
    (∀ l : Text × Nat,
      (Faulty l.1 → ∃ f, BatchRequest.ofLine l.1 = .error f ∧
        written? w e l =
          Json.print? (.object [("error", .string (f.message w)), ("line", .int l.2)]) ∧
        warned w e l = [Text.ofString "[batch] warning: line " ++ Text.ofNat l.2 ++
          Text.ofString ": " ++ f.message w]) ∧
      (¬ Faulty l.1 → ∃ r, Asks l.1 r ∧
        written? w e l = (e.reason r.mode r.input r.context).1.toJson.print? ∧
        warned w e l = []) ∧
      (written? w e l = none ↔ Breaks w e l.1)) ∧
    ((∀ l ∈ numbered input, ¬ Breaks w e l.1) →
      (textLines (batch w e input).output).map some = (numbered input).map (written? w e) ∧
      (batch w e input).errors = [] ∧
      (batch w e input).warnings = (numbered input).flatMap (warned w e) ∧
      ((∃ l ∈ numbered input, Faulty l.1) → (batch w e input).code = 2) ∧
      ((∀ l ∈ numbered input, ¬ Faulty l.1) → (batch w e input).code = 0)) ∧
    (∀ before l after, numbered input = before ++ l :: after →
      (∀ b ∈ before, ¬ Breaks w e b.1) → Breaks w e l.1 →
      (textLines (batch w e input).output).map some = before.map (written? w e) ∧
      (batch w e input).errors =
        line ["Error: invalid JSON: ", w (.unprintable ((answerTo e l).toJson w))] ∧
      (batch w e input).warnings = (before ++ [l]).flatMap (warned w e) ∧
      (batch w e input).code = 1) := by
  intro e
  have hnone (l : Text × Nat) : written? w e l = none ↔ Breaks w e l.1 :=
    written?_eq_none_iff Registry.printable_seeded
  refine ⟨fun l => ⟨written?_of_faulty, written?_of_not_faulty, hnone l⟩, fun h => ?_,
    fun before l after hlines hbefore hl => ?_⟩
  · exact batch_of_written fun l hl => mt (hnone l).1 (h l hl)
  · exact batch_of_unwritten hlines (fun b hb => mt (hnone b).1 (hbefore b hb)) ((hnone l).2 hl)

/-- A choice with a long attribute, described in 47 bytes: the last symbol is cut in two.  Neither
    this request nor the next is answered. -/
theorem batch_ends_at_cut :
    let e := Engine.seeded {}
    let cut : Text := Text.ofString "\x7b\"mode\":\"decision\",\"input\":\"pick\"," ++
      Text.ofString "\"context\":\x7b\"decisionOptions\":[\x7b\"name\":\"A\"," ++
      Text.ofString "\"scores\":\x7b\"aééééééééééééééééééééééé\":5\x7d\x7d]\x7d\x7d"
    let input := line [cut] ++ line ["\x7b\x7d"]
    numbered input = [(cut, 1), ("\x7b\x7d", 2)] ∧ ¬ Faulty cut ∧ ¬ Faulty "\x7b\x7d" ∧
      batch Json.Exception.name e input =
        ⟨1, [], line ["Error: invalid JSON: ", "[json.exception.type_error.316]"], []⟩ := by
  have hfine (t : Text) (h : (answerTo (Engine.seeded {}) (t, 0)).failed = false) : ¬ Faulty t :=
    fun hfaulty => Bool.false_ne_true (h.symm.trans (failed_answerTo.2 hfaulty))
  exact ⟨by decide +kernel, hfine _ (by decide +kernel), hfine _ (by decide +kernel),
    by decide +kernel⟩

end CommandLine

end Reasoning
