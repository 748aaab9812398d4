/-
  What configuration a file gives, and how it is written again.

  * `Config.load_iff`: the settings in the file or the defaults, unless a number in it is too large;
  * `Config.scores`, `Config.counts`: the settings by the names they are read and written with;
  * `Config.WellFormed`: what holds of all settings that are read, `Config.wellFormed_ofJson`;
  * `Config.ofJson_toJson`: settings of this kind are read as they were written;
  * `Config.ofJson_survives`: all of this for the settings of any JSON value.
-/
import Reasoning.Config
import Reasoning.Proofs.Conversion
import Reasoning.Proofs.Dict
import Reasoning.Proofs.Grammar

namespace Reasoning

/-- A member of an object can be looked up if no other one has its name. -/
theorem Json.member?_ofMembers {ms : List (String × Json)} {k : String} {v : Json}
    (hnames : (ms.map fun m => Text.ofString m.1).Nodup) (hm : (k, v) ∈ ms) :
    (ofMembers ms).member? k = some v :=
  Dict.get?_ofList_of_nodup (by rwa [List.map_map]) (List.mem_map.2 ⟨_, hm, rfl⟩)

namespace Config

open Json (Overflows IsValue)

/-- **A number that is too large is all that a configuration file can fail on.**  The file fails
    exactly if its text is well up to such a number.  Else it gives the settings of the value that
    its text is, or the defaults if there is no file or its text is not a value. -/
theorem load_iff (file : Option Text) :
    ((∃ fault, load file = .error fault) ↔ ∃ t, file = some t ∧ Overflows .value (Json.start t)) ∧
    ∀ c, load file = .ok c ↔
      (∃ t j, file = some t ∧ Json.parse t = .ok j ∧ c = ofJson j) ∨
      c = {} ∧ ∀ t, file = some t → ¬ IsValue t ∧ ¬ Overflows .value (Json.start t) := by
  cases file with
  | none =>
    refine ⟨iff_of_false ?_ ?_, fun c => ?_⟩
    · rintro ⟨fault, h⟩
      cases h
    · rintro ⟨t, h, -⟩
      cases h
    · constructor
      · intro h
        cases h
        exact .inr ⟨rfl, nofun⟩
      · rintro (⟨t, j, h, -⟩ | ⟨rfl, -⟩)
        · cases h
        · rfl
  | some t =>
    simp only [Option.some.injEq, exists_and_left, exists_eq_left', forall_eq',
      ← Json.parse_eq_numberTooLarge_iff, ← Json.exists_parse_iff]
    unfold load
    rw [Option.map_some]
    cases Json.parse t with
    | ok j => simp [eq_comm]
    | error f => cases f <;> simp [eq_comm]

/-- The threshold is larger than every number in double precision. -/
theorem load_too_large :
    ¬ ∃ c, load (some "\x7b\"soundness_threshold\": 1e400\x7d") = .ok c := by
  rintro ⟨c, h⟩
  have hnone : (load (some "\x7b\"soundness_threshold\": 1e400\x7d")).toOption = none := by
    decide +kernel
  rw [h] at hnone
  cases hnone

/-! ## Settings by name -/

/-- The settings that are scores. -/
def scores : List (String × (Config → Single)) :=
  [("soundness_threshold", soundnessThreshold),
   ("possibility_weight", possibilityWeight),
   ("necessity_weight", necessityWeight),
   ("collapse_threshold", collapseThreshold),
   ("risk_report_threshold", riskReportThreshold),
   ("default_option_confidence", defaultOptionConfidence),
   ("domain_relevance_threshold", domainRelevanceThreshold),
   ("analogy_min_similarity", analogyMinSimilarity),
   ("transfer_similarity_threshold", transferSimilarityThreshold),
   ("transfer_validity_threshold", transferValidityThreshold)]

/-- The settings that are counts. -/
def counts : List (String × (Config → Nat)) :=
  [("max_derivation_rounds", maxDerivationRounds), ("max_analogies", maxAnalogies)]

/-- The settings are scores and counts of 64 bits. -/
structure WellFormed (c : Config) : Prop where
  isScore : ∀ s ∈ scores, Score.IsScore (s.2 c)
  isCount : ∀ n ∈ counts, n.2 c < UInt64.size

/-- Real numbers that are given for counts are not too large for 64 bits. -/
def CountsFit (j : Json) : Prop :=
  ∀ n ∈ counts, ∀ x, j.member? n.1 = some (.real x) → x.truncate < UInt64.size

variable {j j' : Json} {c c' : Config} {s : String × (Config → Single)}
  {n : String × (Config → Nat)}

/-- The tables name all settings but one. -/
theorem eq_of_settings (hscores : ∀ s ∈ scores, s.2 c = s.2 c')
    (hcounts : ∀ n ∈ counts, n.2 c = n.2 c') (hverbose : c.verbose = c'.verbose) : c = c' := by
  cases c
  cases c'
  simp only [scores, counts, List.forall_mem_cons] at hscores hcounts
  simp_all

/-! ## Reading -/

theorem exists_score (hs : s ∈ scores) :
    ∃ default, ∀ j, s.2 (ofJson j) = score j s.1 default := by
  revert s
  simp only [scores, List.forall_mem_cons]
  exact ⟨⟨_, fun _ => rfl⟩, ⟨_, fun _ => rfl⟩, ⟨_, fun _ => rfl⟩, ⟨_, fun _ => rfl⟩,
    ⟨_, fun _ => rfl⟩, ⟨_, fun _ => rfl⟩, ⟨_, fun _ => rfl⟩, ⟨_, fun _ => rfl⟩,
    ⟨_, fun _ => rfl⟩, ⟨_, fun _ => rfl⟩, List.forall_mem_nil _⟩

theorem exists_count (hn : n ∈ counts) :
    ∃ default < UInt64.size, ∀ j, n.2 (ofJson j) = setting j n.1 Json.count? default := by
  revert n
  simp only [counts, List.forall_mem_cons]
  exact ⟨⟨3, by decide, fun _ => rfl⟩, ⟨5, by decide, fun _ => rfl⟩, List.forall_mem_nil _⟩

theorem verbose_ofJson (j : Json) : (ofJson j).verbose = setting j "verbose" Json.bool? false := rfl

theorem setting_congr {α : Type} {key : Text} (h : j.member? key = j'.member? key)
    (read : Json → Option α) (default : α) :
    setting j key read default = setting j' key read default := by
  rw [setting, setting, h]

theorem setting_lt {key : Text} {default : Nat} (hdefault : default < UInt64.size)
    (h : ∀ x, j.member? key = some (.real x) → x.truncate < UInt64.size) :
    setting j key Json.count? default < UInt64.size := by
  unfold setting
  cases hmember : j.member? key with
  | none => exact hdefault
  | some v =>
    have hsize : (0 : Int) < UInt64.size := by decide
    cases v with
    | int m =>
      show (m % UInt64.size).toNat < UInt64.size
      have := Int.emod_lt_of_pos m hsize
      omega
    | real x =>
      show x.truncate.toNat < UInt64.size
      have := h x hmember
      omega
    | _ => exact hdefault

/-- **What is read is well formed.** -/
theorem wellFormed_ofJson (h : CountsFit j) : (ofJson j).WellFormed where
  isScore s hs := by
    obtain ⟨default, hread⟩ := exists_score hs
    rw [hread]
    exact Score.isScore_clamp _
  isCount n hn := by
    obtain ⟨default, hdefault, hread⟩ := exists_count hn
    rw [hread]
    exact setting_lt hdefault (h n hn)

/-! ## Writing -/

/-- Each setting is written under its name. -/
theorem member?_toJson (c : Config) :
    (∀ s ∈ scores, c.toJson.member? s.1 = some (.ofSingle (s.2 c))) ∧
    (∀ n ∈ counts, c.toJson.member? n.1 = some (.ofNat (n.2 c))) ∧
    c.toJson.member? "verbose" = some (.bool c.verbose) := by
  obtain ⟨ms, hms, hnames, hscores, hcounts, hverbose⟩ : ∃ ms, c.toJson = .ofMembers ms ∧
      (ms.map fun m => Text.ofString m.1).Nodup ∧
      (∀ s ∈ scores, (s.1, .ofSingle (s.2 c)) ∈ ms) ∧
      (∀ n ∈ counts, (n.1, .ofNat (n.2 c)) ∈ ms) ∧ ("verbose", .bool c.verbose) ∈ ms := by
    refine ⟨_, rfl, ?_, ?_, ?_, ?_⟩
    · simp only [List.map_cons, List.map_nil]
      decide +kernel
    · simp [scores]
    · simp [counts]
    · simp
  rw [hms]
  exact ⟨fun s hs => Json.member?_ofMembers hnames (hscores s hs),
    fun n hn => Json.member?_ofMembers hnames (hcounts n hn),
    Json.member?_ofMembers hnames hverbose⟩

/-- **Settings are read as they were written.** -/
theorem ofJson_toJson (h : c.WellFormed) : ofJson c.toJson = c := by
  refine eq_of_settings (fun s hs => ?_) (fun n hn => ?_) ?_
  · obtain ⟨default, hread⟩ := exists_score hs
    rw [hread, score, setting, (member?_toJson c).1 s hs]
    show Score.clamp (s.2 c).convert.convert = s.2 c
    rw [Binary.convert_convert Format.single_within_double, (h.isScore s hs).clamp]
  · obtain ⟨default, -, hread⟩ := exists_count hn
    rw [hread, setting, (member?_toJson c).2.1 n hn]
    show ((n.2 c : Int) % UInt64.size).toNat = n.2 c
    rw [Int.emod_eq_of_lt (Int.natCast_nonneg _) (Int.ofNat_lt.2 (h.isCount n hn)),
      Int.toNat_natCast]
  · rw [verbose_ofJson, setting, (member?_toJson c).2.2]
    rfl

/-- **Settings survive being written and read.**  What is read of any JSON value is read again as
    it is written.  All its scores are numbers from zero to one, and each setting depends on the
    member of its name alone, whatever the others are. -/
theorem ofJson_survives (h : CountsFit j) :
    ofJson (ofJson j).toJson = ofJson j ∧
    (∀ s ∈ scores, Score.IsScore (s.2 (ofJson j)) ∧ (s.2 (ofJson j)).isNaN = false) ∧
    ∀ j', (∀ s ∈ scores, j'.member? s.1 = j.member? s.1 → s.2 (ofJson j') = s.2 (ofJson j)) ∧
      (∀ n ∈ counts, j'.member? n.1 = j.member? n.1 → n.2 (ofJson j') = n.2 (ofJson j)) ∧
      (j'.member? "verbose" = j.member? "verbose" → (ofJson j').verbose = (ofJson j).verbose) := by
  have hwell := wellFormed_ofJson h
  refine ⟨ofJson_toJson hwell, fun s hs => ?_, fun j' => ⟨fun s hs hmember => ?_,
    fun n hn hmember => ?_, fun hmember => ?_⟩⟩
  · exact ⟨hwell.isScore s hs, (hwell.isScore s hs).isNaN⟩
  · obtain ⟨default, hread⟩ := exists_score hs
    rw [hread, hread, score, score, setting_congr hmember]
  · obtain ⟨default, -, hread⟩ := exists_count hn
    rw [hread, hread, setting_congr hmember]
  · rw [verbose_ofJson, verbose_ofJson, setting_congr hmember]

/-- A count with a fraction and a weight that is too large are read again as the count without it
    and the largest weight, and the weight is the same beside other members. -/
theorem ofJson_survives_cut :
    let j : Json := .ofMembers [("max_derivation_rounds", .real 2.5),
      ("possibility_weight", .real 4), ("soundness_threshold", .bool true), ("verbose", .int 1)]
    let j' : Json := .ofMembers [("possibility_weight", .real 4), ("soundness_threshold", .null)]
    CountsFit j ∧ ofJson (ofJson j).toJson = ofJson j ∧ (ofJson j).maxDerivationRounds = 2 ∧
      (ofJson j).possibilityWeight = 1 ∧ j'.member? "possibility_weight" = some (.real 4) ∧
      (ofJson j').possibilityWeight = (ofJson j).possibilityWeight := by
  intro j j'
  have hrounds : j.member? "max_derivation_rounds" = some (.real 2.5) :=
    Json.member?_ofMembers (by decide +kernel) (by simp)
  have hanalogies : j.member? "max_analogies" = none := by rfl
  have hweight : j.member? "possibility_weight" = some (.real 4) :=
    Json.member?_ofMembers (by decide +kernel) (by simp)
  have hweight' : j'.member? "possibility_weight" = some (.real 4) :=
    Json.member?_ofMembers (by decide +kernel) (by simp)
  have hfit : CountsFit j := by
    simp only [CountsFit, counts, List.forall_mem_cons]
    refine ⟨fun x hx => ?_, fun x hx => ?_, List.forall_mem_nil _⟩
    · obtain rfl := Json.real.inj (Option.some.inj (hrounds.symm.trans hx))
      decide +kernel
    · exact (Option.some_ne_none _ (hx.symm.trans hanalogies)).elim
  obtain ⟨hsame, -, hown⟩ := ofJson_survives hfit
  have hscores := (hown j').1
  simp only [scores, List.forall_mem_cons] at hscores
  exact ⟨hfit, hsame, by decide +kernel, by decide +kernel, hweight',
    hscores.2.1 (hweight'.trans hweight.symm)⟩

end Config

end Reasoning
