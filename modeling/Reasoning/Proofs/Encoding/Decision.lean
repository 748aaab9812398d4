/-
  Decisions are whole symbols, save for descriptions of attributes that are cut.

  * `Choice.allValid_ofInput`, `Choice.allValid_ofContextValue?`: choices are read from an input
    and a context without cutting a symbol;
  * `Decision.CutsSymbol`: describing an attribute of a choice cuts a symbol;
  * `Decision.printable_reason_iff`: nothing else keeps a decision from being written.
-/
import Reasoning.Decision.Reason
import Reasoning.Proofs.Encoding
import Reasoning.Proofs.Regex

namespace Reasoning

open Text

variable {input t : Text}

/-! ## Names -/

theorem mem_of_mem_distinctBy {α : Type} {key : α → Text} {as : List α} {a : α}
    (h : a ∈ distinctBy key as) : a ∈ as := by
  revert h
  refine List.foldlRecOn as _ (motive := fun kept => a ∈ kept → a ∈ as) (fun h => nomatch h)
    fun kept hkept b hb h => ?_
  split at h
  · exact hkept h
  · rcases List.mem_append.1 h with h | h
    · exact hkept h
    · rwa [List.mem_singleton.1 h]

theorem mem_of_mem_distinctNames {names : List Text} (h : t ∈ distinctNames names) : t ∈ names :=
  (List.mem_filter.1 (mem_of_mem_distinctBy h)).1

@[simp] theorem Text.valid_slug (t : Text) : t.slug.Valid := by
  have halnum : Ascii Byte.isAlnum := by decide +kernel
  refine valid_of_ascii fun b hb => ?_
  obtain ⟨c, -, rfl⟩ := List.mem_map.1 hb
  split
  · rename_i hc
    exact halnum c hc
  · decide

/-! ## Choices of a text -/

namespace Choice

theorem valid_cutTrailingClause (h : t.Valid) : (cutTrailingClause t).Valid := by
  unfold cutTrailingClause
  dsimp only
  refine Valid.trim ?_
  split
  · rename_i n hn
    obtain ⟨s, hs, hfind⟩ := List.mem_filterMap.1 (List.min?_mem hn)
    have hspace : ∀ s ∈ clauseStarts, ∃ u, s = 0x20 :: u := by
      have : ∀ s ∈ clauseStarts, s = 0x20 :: s.drop 1 := by decide
      exact fun s hs => ⟨_, this s hs⟩
    obtain ⟨u, rfl⟩ := hspace s hs
    exact h.take_of_find? (by decide) hfind
  · exact h

open Regex in
/-- The two names behind "choose between" stand between spaces, or before the end of a clause. -/
theorem valid_pieces_between (h : input.Valid) {m : Match} (hm : between.search input = some m) :
    (m.piece 1).Valid ∧ (m.piece 2).Valid := by
  obtain ⟨previous, s, u, rfl, hat⟩ := exists_of_search hm
  unfold matchAt between at hat
  simp only [run_ofList_cons] at hat
  -- Behind the first space the rest of the text is valid, and stays so behind each other one.
  obtain ⟨s₁, y, hy, -, hat⟩ := run_over (p := fun _ => True) (by decide +kernel) hat
  obtain ⟨s₂, z, hz, -, hat⟩ := run_over (p := fun _ => True) (by decide +kernel) hat
  rw [show u = s₁ ++ y.rest from hy, hz, ← List.append_assoc, ← List.append_assoc] at h
  obtain ⟨y, -, h, hat⟩ := run_space h hat
  obtain ⟨s₃, z, hz, -, hat⟩ := run_over (p := fun _ => True) (by decide +kernel) hat
  rw [hz] at h
  obtain ⟨y, -, h, hat⟩ := run_space h hat
  -- The first name ends in front of a space.
  obtain ⟨first, z, hz, hat⟩ := run_group (by decide +kernel) hat
  rw [hz] at h
  obtain ⟨y, hfirst, h, hat⟩ := run_space h hat
  obtain ⟨s₄, z, hz, -, hat⟩ := run_over (p := fun _ => True) (by decide +kernel) hat
  rw [hz] at h
  obtain ⟨y, -, h, hat⟩ := run_space h hat
  -- The second one takes all there is in front of a punctuation mark.
  obtain ⟨z, hat⟩ := run_group_last (fun _ _ => rfl) hat
  cases hat
  exact ⟨hfirst, (h.takeWhile (by decide +kernel)).1⟩

theorem allValid_pieces_named (input : Text) (w : String)
    (hw : (named (Text.ofString w)).Grouped (· < 0x80)) :
    AllValid (((named (Text.ofString w)).all input).map (·.piece 1)) := by
  refine allValid_map.2 fun m hm => ?_
  obtain ⟨previous, s, u, -, hm⟩ := Regex.exists_of_mem_all hm
  exact valid_of_ascii (Regex.piece_of_grouped hw hm 1)

theorem allValid_names (h : input.Valid) : AllValid (names input) := by
  have hoptions := allValid_pieces_named input "option" (by decide +kernel)
  unfold names
  refine AllValid.of_subset ?_ fun t ht => mem_of_mem_distinctNames ht
  refine allValid_append.2 ⟨?_, hoptions⟩
  split
  · rename_i m hm
    obtain ⟨hfirst, hsecond⟩ := valid_pieces_between h hm
    simp [hfirst.trim, valid_cutTrailingClause hsecond]
  · exact allValid_nil

variable {c : Choice Single}

theorem allValid_texts : AllValid c.texts ↔ c.id.Valid ∧ c.name.Valid ∧
    AllValid c.criteriaScores.keys ∧ AllValid c.utilities.keys ∧ AllValid c.risks.keys := by
  simp only [texts, allValid_cons, allValid_append, and_assoc]

theorem allValid_setAttribute (h : AllValid c.texts) (s : Scale) {key : Text} (hkey : key.Valid)
    (x : Single) : AllValid (c.setAttribute s key x).texts := by
  have hinsert {d : Dict Single} (hd : AllValid d.keys) : AllValid (d.insert key x).keys :=
    AllValid.of_subset (allValid_cons.2 ⟨hkey, hd⟩) (Dict.keys_insert_subset ..)
  rw [allValid_texts] at h ⊢
  obtain ⟨hid, hname, hscores, hutilities, hrisks⟩ := h
  cases s with
  | score => exact ⟨hid, hname, hinsert hscores, hutilities, hrisks⟩
  | utility => exact ⟨hid, hname, hscores, hinsert hutilities, hrisks⟩
  | risk => exact ⟨hid, hname, hscores, hutilities, hinsert hrisks⟩

theorem allValid_addAttributes (h : AllValid c.texts) (t : Text) :
    AllValid (c.addAttributes t).texts := by
  have hpattern : attributePattern.Grouped (· < 0x80) := by decide +kernel
  unfold addAttributes
  refine List.foldlRecOn _ _ (motive := fun c : Choice Single => AllValid c.texts) h
    fun c hc m hm => ?_
  obtain ⟨previous, s, u, -, hm⟩ := Regex.exists_of_mem_all hm
  have hpiece (n : Nat) : (m.piece n).lower.Valid :=
    (valid_of_ascii (Regex.piece_of_grouped hpattern hm n)).lower
  unfold addMatch
  dsimp only
  split
  · refine allValid_setAttribute hc _ ?_ _
    unfold attributeKey
    split
    · exact hpiece 2
    · exact hpiece 1
  · exact hc

theorem allValid_ofInput (h : input.Valid) (confidence : Single) :
    ∀ c ∈ ofInput input confidence, AllValid c.texts := by
  refine List.forall_mem_map.2 fun n hn => ?_
  unfold ofName
  refine List.foldlRecOn _ _ (motive := fun c : Choice Single => AllValid c.texts) ?_
    fun c hc t _ => allValid_addAttributes hc t
  simp [allValid_texts, allValid_names h n hn, Dict.keys]

/-! ## Choices of a context -/

theorem allValid_addMember (h : AllValid c.texts) (s : Scale) {m : Text × Json} (hm : m.1.Valid) :
    AllValid (c.addMember s m).texts := by
  unfold addMember
  dsimp only
  split
  · split
    · exact allValid_setAttribute h _ hm.lower _
    · exact h
  · split
    · exact allValid_setAttribute h _ hm.lower _
    · exact h

theorem allValid_addField {entry : Json} (he : entry.Printable) (h : AllValid c.texts)
    (field : Text × Scale) : AllValid (addField entry c field).texts := by
  unfold addField
  exact List.foldlRecOn _ _ (motive := fun c : Choice Single => AllValid c.texts) h
    fun c hc m hm => allValid_addMember hc _ ((he.getD_member? field.1).members m hm).1

theorem allValid_ofContextValue? {entry : Json} (he : entry.Printable) {confidence : Single}
    (h : ofContextValue? confidence entry = some c) : AllValid c.texts := by
  unfold ofContextValue? at h
  dsimp only at h
  obtain ⟨-, h⟩ := Option.ite_none_left_eq_some.1 h
  rw [← Option.some.inj h]
  split
  · simp [allValid_texts, Json.printable_string.1 he, Dict.keys]
  · refine List.foldlRecOn _ _ (motive := fun c : Choice Single => AllValid c.texts) ?_
      fun c hc field _ => allValid_addField he hc field
    have hid := he.textField "id" .nil
    have hname := he.textField "name" hid
    simp only [allValid_texts]
    refine ⟨?_, hname, allValid_nil, allValid_nil, allValid_nil⟩
    split
    · exact valid_slug _
    · exact he.textField "id" (valid_slug _)
  · simp [allValid_texts, Dict.keys, Valid.nil]

theorem allValid_ofContext {context : Json} (hc : context.Printable) (confidence : Single) :
    ∀ c ∈ ofContext context confidence, AllValid c.texts := by
  intro c hmem
  obtain ⟨entry, hentry, h⟩ := List.mem_filterMap.1 hmem
  exact allValid_ofContextValue? (hc.listField _ entry hentry) h

end Choice

/-! ## Criteria -/

namespace Criterion

open Regex in
theorem valid_piece_basis (h : input.Valid) {m : Match} (hm : m ∈ basis.all input) :
    (m.piece 1).Valid := by
  obtain ⟨previous, s, u, rfl, hat⟩ := exists_of_mem_all hm
  unfold matchAt basis at hat
  simp only [run_ofList_cons] at hat
  obtain ⟨s₁, y, hy, -, hat⟩ := run_over (p := fun _ => True) (by decide +kernel) hat
  obtain ⟨s₂, z, hz, -, hat⟩ := run_over (p := fun _ => True) (by decide +kernel) hat
  rw [show u = s₁ ++ y.rest from hy, hz, ← List.append_assoc, ← List.append_assoc] at h
  obtain ⟨y, -, h, hat⟩ := run_space h hat
  obtain ⟨z, hat⟩ := run_group_last (fun _ _ => rfl) hat
  cases hat
  exact (h.takeWhile (by decide +kernel)).1

theorem allValid_names (h : input.Valid) : AllValid (names input) := by
  have hnamed := Choice.allValid_pieces_named input "criterion" (by decide +kernel)
  unfold names
  refine AllValid.of_subset ?_ fun t ht => mem_of_mem_distinctNames ht
  refine allValid_append.2 ⟨hnamed, allValid_flatMap.2 fun m hm => allValid_map.2 fun t ht => ?_⟩
  exact ((valid_piece_basis h hm).splitOnPhrase (by decide) (by decide +kernel) t ht).trim

theorem allValid_ofInput (h : input.Valid) : ∀ k ∈ ofInput input, AllValid k.texts :=
  List.forall_mem_map.2 fun n hn => by simp [texts, (allValid_names h n hn).lower]

theorem allValid_ofContextValue? {entry : Json} (he : entry.Printable) {k : Criterion Single}
    (h : ofContextValue? entry = some k) : AllValid k.texts := by
  unfold ofContextValue? at h
  dsimp only at h
  obtain ⟨-, h⟩ := Option.ite_none_left_eq_some.1 h
  rw [← Option.some.inj h]
  split
  · simp [texts, (Json.printable_string.1 he).lower]
  · have hname := he.textField "name" (he.textField "id" .nil)
    simp [texts, hname.lower]
  · simp [texts, Valid.nil]

theorem allValid_ofContext {context : Json} (hc : context.Printable) :
    ∀ k ∈ ofContext context, AllValid k.texts := by
  intro k hmem
  obtain ⟨entry, hentry, h⟩ := List.mem_filterMap.1 hmem
  exact allValid_ofContextValue? (hc.listField _ entry hentry) h

end Criterion

@[simp] theorem Criterion.Kind.valid_name (k : Kind) : k.name.Valid := by
  cases k <;> exact valid_ofString _

@[simp] theorem DecisionRule.Kind.valid_name (k : Kind) : k.name.Valid := by
  cases k <;> exact valid_ofString _

/-! ## Descriptions -/

/-- The attributes of a choice. -/
def Choice.attributes {α : Type} (c : Choice α) : Dict α :=
  c.criteriaScores ++ c.utilities ++ c.risks

namespace Decision

/-- Describing an attribute of the choice cuts a symbol. -/
def CutsSymbol (c : Choice Single) : Prop :=
  ∃ a ∈ c.attributes, (describeAttribute a).isUtf8 = false

theorem starts_describeAttribute (a : Text × Single) : (describeAttribute a).Starts :=
  starts_cons (by decide)

/-- Descriptions begin with a space, so one that is cut is not made whole by the next. -/
theorem valid_describeAttributes {label : Text} (hlabel : label.Valid) {d : Dict Single} :
    (describeAttributes label d).Valid ↔ ∀ a ∈ d, (describeAttribute a).Valid := by
  have hflat : Valid (d.flatMap describeAttribute) ↔ ∀ a ∈ d, (describeAttribute a).Valid := by
    induction d with
    | nil => simp [Valid.nil]
    | cons a d ih =>
      rw [List.flatMap_cons, List.forall_mem_cons, ← ih]
      refine ⟨fun h => h.cut ?_, fun h => h.1.append h.2⟩
      cases d with
      | nil => exact starts_nil
      | cons b d => exact starts_describeAttribute b
  rw [← hflat]
  unfold describeAttributes
  split
  · rename_i hnil
    rw [List.isEmpty_iff.1 hnil]
    rfl
  · simp [hlabel]

theorem starts_describeAttributes (label : Text) (d : Dict Single) :
    (describeAttributes label d).Starts := by
  unfold describeAttributes
  split
  · exact starts_nil
  · exact starts_cons (by decide)

theorem valid_describe_iff {c : Choice Single} (hname : c.name.Valid) :
    (describe c).Valid ↔ ¬ CutsSymbol c := by
  have hcuts : ¬ CutsSymbol c ↔ ∀ a ∈ c.attributes, (describeAttribute a).Valid := by
    simp [CutsSymbol, valid_iff]
  rw [hcuts, Choice.attributes, List.forall_mem_append, List.forall_mem_append,
    ← valid_describeAttributes (valid_ofString "scores"),
    ← valid_describeAttributes (valid_ofString "utilities"),
    ← valid_describeAttributes (valid_ofString "risks")]
  unfold describe
  constructor
  · intro h
    obtain ⟨h, hrisks⟩ := h.cut (starts_describeAttributes _ _)
    obtain ⟨h, hutilities⟩ := h.cut (starts_describeAttributes _ _)
    obtain ⟨-, hscores⟩ := h.cut (starts_describeAttributes _ _)
    exact ⟨⟨hscores, hutilities⟩, hrisks⟩
  · rintro ⟨⟨hscores, hutilities⟩, hrisks⟩
    exact ((((valid_ofString _).append hname).append hscores).append hutilities).append hrisks

/-! ## Answers -/

namespace Ranking

/-- All texts of the ranking that are written are valid, the descriptions of choices aside. -/
structure Legible (k : Ranking) : Prop where
  premises : ∀ p ∈ k.premises, AllValid p.texts
  choices : ∀ c ∈ k.choices, AllValid c.texts
  criteria : ∀ q ∈ k.criteria, AllValid q.texts
  verdicts : ∀ v ∈ k.verdicts, AllValid v.1.texts ∧ v.2.rule.Valid
  final : k.final.rule.Valid

theorem rule_decide (rule : DecisionRule) (cs : List (Choice Single))
    (ks : List (Criterion Single)) : (rule.decide cs ks).rule = rule.id := by
  unfold DecisionRule.decide
  split <;> rfl

theorem legible_of {ps : List Proposition} {cs : List (Choice Single)}
    {ks : List (Criterion Single)} {rules : List DecisionRule}
    (hp : ∀ p ∈ ps, AllValid p.texts) (hc : ∀ c ∈ cs, AllValid c.texts)
    (hk : ∀ k ∈ ks, AllValid k.texts) (hr : ∀ rule ∈ rules, AllValid rule.texts) :
    (Ranking.of ps cs ks rules).Legible := by
  have hid : ∀ rule ∈ rules, rule.id.Valid := fun rule hrule =>
    hr rule hrule rule.id (by simp [DecisionRule.texts])
  have hverdicts : ∀ v ∈ rules.map fun rule => (rule, rule.decide cs ks),
      AllValid v.1.texts ∧ v.2.rule.Valid :=
    List.forall_mem_map.2 fun rule hrule => ⟨hr rule hrule, by
      rw [rule_decide]
      exact hid rule hrule⟩
  refine ⟨hp, hc, hk, hverdicts, ?_⟩
  unfold Ranking.of
  dsimp only
  generalize rules.map (fun rule => (rule, rule.decide cs ks)) = vs at hverdicts ⊢
  cases hv : vs[Decision.winner (vs.map (·.2))]? with
  | none => exact valid_ofString _
  | some v => exact (hverdicts v (List.mem_of_getElem? hv)).2

variable {k : Ranking}

theorem Legible.pickedName (h : k.Legible) (v : Verdict) :
    (Decision.pickedName k.choices v).Valid := by
  unfold Decision.pickedName
  cases hc : k.choices[v.selected]? with
  | none => exact .nil
  | some c => exact (Choice.allValid_texts.1 (h.choices c (List.mem_of_getElem? hc))).2.1

@[simp] theorem Legible.statement (h : k.Legible) : k.statement.Valid := by
  unfold Ranking.statement selectedName
  simp [h.pickedName]

theorem Legible.risks (h : k.Legible) (c : Config) : AllValid (Dict.keys (k.risks c)) := by
  unfold Ranking.risks selected?
  refine AllValid.of_subset ?_ (List.map_subset _ List.filter_sublist.subset)
  cases hc : k.choices[k.final.selected]? with
  | none => exact allValid_nil
  | some c => exact (Choice.allValid_texts.1 (h.choices c (List.mem_of_getElem? hc))).2.2.2.2

/-- The proof can be written if no description cuts a symbol. -/
theorem Legible.printable_proof (h : k.Legible) :
    k.proof.Printable ↔ ∀ c ∈ k.choices, ¬ CutsSymbol c := by
  have hdescribe : (∀ c ∈ k.choices, (describe c).Valid ∧ (Text.ofString "option").Valid) ↔
      ∀ c ∈ k.choices, ¬ CutsSymbol c := forall₂_congr fun c hc => by
    rw [valid_describe_iff (Choice.allValid_texts.1 (h.choices c hc)).2.1]
    exact and_iff_left (valid_ofString _)
  have hpremises : ∀ p ∈ k.premises, p.text.Valid ∧ (Text.ofString "given").Valid := fun p hp =>
    ⟨h.premises p hp p.text (by simp [Proposition.texts]), valid_ofString _⟩
  have hverdicts : ∀ v ∈ k.verdicts, (v.1.name ++ Text.ofString " selects " ++
      Decision.pickedName k.choices v.2).Valid ∧ v.1.description.Valid := fun v hv => by
    have := (h.verdicts v hv).1
    simp only [DecisionRule.texts, allValid_cons] at this
    simp [this, h.pickedName]
  have hfallback (l : Ledger) (x : Single) (refs : List Nat) : Ledger.Printable
      (if k.verdicts.isEmpty then l.push .inference "No decision rules registered" "fallback" x refs
        else l) ↔ l.Printable := by
    split
    · rw [Ledger.printable_push, and_iff_left ⟨valid_ofString _, valid_ofString _⟩]
    · rfl
  unfold Ranking.proof
  dsimp only
  rw [Ledger.printable_push, and_iff_left ⟨h.statement, valid_ofString _⟩, hfallback,
    Ledger.printable_foldl_push, Ledger.printable_foldl_push, Ledger.printable_foldl_push,
    and_iff_left hverdicts, and_iff_left hpremises, and_iff_right Ledger.printable_empty, hdescribe]

theorem Legible.printable_verdictJson (h : k.Legible) {v : Verdict} (hv : v.rule.Valid) :
    (k.verdictJson v).Printable := by
  have hscores : (Json.object (Dict.ofList ((k.choices.zip v.scores).map fun s =>
      (s.1.name, Json.ofSingle s.2)))).Printable := by
    refine Json.printable_object.2 fun m hm => ?_
    obtain ⟨s, hs, rfl⟩ := List.mem_map.1 (Dict.mem_of_mem_ofList hm)
    have hc := h.choices s.1 (List.of_mem_zip hs).1
    exact ⟨(Choice.allValid_texts.1 hc).2.1, Json.printable_ofSingle s.2⟩
  unfold verdictJson
  dsimp only
  refine Json.printable_ofMembers ?_
  simp [hv, h.pickedName, hscores]

theorem Legible.printable_details (h : k.Legible) (c : Config) : (k.details c).Printable := by
  have hid : Text.Valid ((k.selected?.map (·.id)).getD []) := by
    unfold selected?
    cases hc : k.choices[k.final.selected]? with
    | none => exact .nil
    | some c => exact (Choice.allValid_texts.1 (h.choices c (List.mem_of_getElem? hc))).1
  have hselected : (Json.ofMembers [("id", .string ((k.selected?.map (·.id)).getD [])),
      ("name", .string k.selectedName)]).Printable :=
    Json.printable_ofMembers (by simp [hid, selectedName, h.pickedName])
  have hrules : (Json.array (k.verdicts.map fun v => k.verdictJson v.2)).Printable :=
    Json.printable_array_map.2 fun v hv => h.printable_verdictJson (h.verdicts v hv).2
  have hchoices : (Json.array (k.choices.map choiceJson)).Printable :=
    Json.printable_array_map.2 fun c hc => by
      have := Choice.allValid_texts.1 (h.choices c hc)
      simp [choiceJson, this]
  have hcriteria : (Json.array (k.criteria.map Criterion.toJson)).Printable :=
    Json.printable_array_map.2 fun q hq => by
      have := h.criteria q hq
      simp only [Criterion.texts, allValid_cons] at this
      simp [Criterion.toJson, this]
  have hrisks : (Json.array ((k.risks c).map fun r => Json.ofMembers
      [("risk", .string r.1), ("level", .ofSingle r.2)])).Printable :=
    Json.printable_array_map.2 fun r hr => by
      simp [h.risks c r.1 (List.mem_map_of_mem hr)]
  have hrecommendations : AllValid k.recommendations := by
    unfold recommendations
    simp only [allValid_append]
    refine ⟨⟨by simp, ?_⟩, ?_⟩ <;> split <;> simp
  unfold details
  refine Json.printable_ofMembers ?_
  simp [hselected, h.final, hrules, hchoices, hcriteria, hrisks,
    hrecommendations]

/-- The answer can be written just when no description cuts a symbol. -/
theorem Legible.printable_answer (h : k.Legible) (c : Config) (input : Text) :
    (k.answer c input).toJson.Printable ↔ ∀ o ∈ k.choices, ¬ CutsSymbol o := by
  rw [← h.printable_proof]
  refine ⟨fun hanswer => Result.printable_proof_of_toJson hanswer, fun hproof => ?_⟩
  refine Result.Printable.toJson ⟨?_, hproof, ?_, ?_, ?_, ?_, h.printable_details c⟩
  · exact allValid_cons.2 ⟨h.statement, allValid_nil⟩
  · have hnames : AllValid (k.choices.map (·.name)) := allValid_map.2 fun o ho =>
      (Choice.allValid_texts.1 (h.choices o ho)).2.1
    exact hnames.of_subset List.eraseIdx_subset
  · simp only [answer, uncertainty, allValid_append]
    refine ⟨allValid_map.2 fun r hr => ?_, by split <;> simp⟩
    simp [h.risks c r.1 (List.mem_map_of_mem hr), selectedName, h.pickedName]
  · simp only [answer, uncertainty, allValid_append]
    constructor <;> split <;> simp
  · refine allValid_map.2 fun v hv => ?_
    have := (h.verdicts v hv).1
    simp only [DecisionRule.texts, allValid_cons] at this
    simp [this.2.1, this.2.2.2.join (valid_ofString ", ")]

end Ranking

variable {r : Registry} {context : Json}

theorem allValid_choices (hr : r.Printable) (c : Config) (hi : input.Valid)
    (hc : context.Printable) : ∀ o ∈ choices r c input context, AllValid o.texts := by
  intro o ho
  rcases List.mem_append.1 (mem_of_mem_distinctBy ho) with ho | ho
  · rcases List.mem_append.1 ho with ho | ho
    · exact Choice.allValid_ofInput hi _ o ho
    · exact Choice.allValid_ofContext hc _ o ho
  · exact hr.choices o ho

theorem allValid_criteria (hr : r.Printable) (hi : input.Valid) (hc : context.Printable) :
    ∀ k ∈ criteria r input context, AllValid k.texts := by
  intro k hk
  rcases List.mem_append.1 (mem_of_mem_distinctBy hk) with hk | hk
  · rcases List.mem_append.1 hk with hk | hk
    · exact Criterion.allValid_ofInput hi k hk
    · exact Criterion.allValid_ofContext hc k hk
  · exact hr.criteria k hk

/-- **A decision can be written just when no description of a choice cuts a symbol.** -/
theorem printable_reason_iff (hr : r.Printable) (c : Config) (m : Metrics) (hi : input.Valid)
    (hc : context.Printable) :
    (reason r c m input context).1.toJson.Printable ↔
      ∀ o ∈ choices r c input context, ¬ CutsSymbol o := by
  unfold reason
  dsimp only
  split
  · rename_i hnone
    rw [List.isEmpty_iff.1 hnone]
    refine iff_of_true (Result.Printable.toJson ?_) (List.forall_mem_nil _)
    exact Result.printable_neutral (valid_ofString _) (Json.printable_ofMembers (by simp)) (by simp)
  · exact (Ranking.legible_of (Extraction.allValid_premises hi hc) (allValid_choices hr c hi hc)
      (allValid_criteria hr hi hc) hr.decisionRules).printable_answer c input

end Decision

end Reasoning
