/-
  Metrics account for every call.

  * `Request.modes`, `Answer.calls`: the modes of the calls that a request makes, and the
    confidences that its answer reports for them;
  * `Metrics.Accounts`: what the metrics say of some calls and transfers, with one lemma for each
    way to change them;
  * `Engine.records_evaluate`, `Engine.accounts_answer`, `Engine.accounts_session`: every engine,
    every request and every session records each call once;
  * `Engine.session_accounted`: what this says of the metrics in numbers.
-/
import Reasoning.Proofs.Average
import Reasoning.Proofs.Repetition
import Reasoning.Proofs.Transfer

namespace Reasoning

/-! ## Calls -/

/-- The modes of the calls that a request makes, in their order. -/
def Request.modes : Request → List Mode
  | .reason mode .. => [mode]
  | .reasonAll .. => Mode.all
  | .across .. | .transfer .. | .analogies .. | .abstractions .. | .synthesize .. => [.crossDomain]
  | _ => []

def Request.isTransfer : Request → Bool
  | .transfer .. => true
  | _ => false

/-- The calls that an answer comes of: their modes, and the confidences that it reports. -/
def Answer.calls : Answer → List (Mode × Single)
  | .result r => [(r.mode, r.confidence)]
  | .results rs => rs.map fun r => (r.2.mode, r.2.confidence)
  | .solution s => [(.crossDomain, s.confidence)]
  | .transfer t => [(.crossDomain, t.compatibility)]
  | .analogies s => [(.crossDomain, s.confidence)]
  | .abstractions s => [(.crossDomain, s.confidence)]
  | .synthesis s => [(.crossDomain, s.confidence)]
  | _ => []

/-- Whether the transfer that an answer tells of succeeded, if there is one. -/
def Answer.transfers : Answer → List Bool
  | .transfer t => [t.success]
  | _ => []

/-- The confidences of the calls of a mode. -/
def confidencesOf (mode : Mode) (calls : List (Mode × Single)) : List Single :=
  (calls.filter (·.1 = mode)).map (·.2)

theorem confidencesOf_concat (mode other : Mode) (calls : List (Mode × Single)) (x : Single) :
    confidencesOf other (calls ++ [(mode, x)]) =
      confidencesOf other calls ++ if mode = other then [x] else [] := by
  unfold confidencesOf
  rw [List.filter_append, List.map_append]
  congr 1
  by_cases h : mode = other <;> simp [h]

theorem length_confidencesOf (mode : Mode) (calls : List (Mode × Single)) :
    (confidencesOf mode calls).length = (calls.map (·.1)).count mode := by
  unfold confidencesOf
  rw [List.length_map, List.count, List.countP_map, List.countP_eq_length_filter]
  congr 2

theorem length_confidencesOf_lt {calls : List (Mode × Single)} {n : Nat} (h : calls.length < n)
    (mode : Mode) : (confidencesOf mode calls).length < n := by
  refine Nat.lt_of_le_of_lt ?_ h
  rw [length_confidencesOf, ← List.length_map (·.1)]
  exact List.count_le_length

/-! ## Metrics -/

namespace Metrics

/-- The metrics account for the calls and for the transfers, each with its success. -/
structure Accounts (m : Metrics) (calls : List (Mode × Single)) (transfers : List Bool) : Prop where
  modes : ∀ mode, m.modes.get mode = (confidencesOf mode calls).foldl RunningAverage.add .empty
  total : m.totalCalls = calls.length.toUInt64
  empty : ∃ n ≤ calls.length, m.emptyInputs = n.toUInt64
  attempted : m.transfersAttempted = transfers.length.toUInt64
  succeeded : m.transfersSucceeded = (transfers.count true).toUInt64

/-- Metrics that differ in other counters. -/
structure SameCalls (m n : Metrics) : Prop where
  modes : n.modes = m.modes
  totalCalls : n.totalCalls = m.totalCalls
  emptyInputs : n.emptyInputs = m.emptyInputs
  transfersAttempted : n.transfersAttempted = m.transfersAttempted
  transfersSucceeded : n.transfersSucceeded = m.transfersSucceeded

theorem SameCalls.refl (m : Metrics) : m.SameCalls m := ⟨rfl, rfl, rfl, rfl, rfl⟩

theorem accounts_empty : Metrics.empty.Accounts [] [] where
  modes mode := by cases mode <;> rfl
  total := rfl
  empty := ⟨0, Nat.le_refl 0, rfl⟩
  attempted := rfl
  succeeded := rfl

namespace Accounts

variable {m : Metrics} {calls : List (Mode × Single)} {transfers : List Bool}

/-- A finished call is one call more. -/
theorem call (h : m.Accounts calls transfers) (mode : Mode) (x : Single) (isEmpty : Bool) :
    (m.call mode x isEmpty).Accounts (calls ++ [(mode, x)]) transfers where
  modes other := by
    show (m.modes.modify mode (·.add x)).get other = _
    rw [PerMode.get_modify, confidencesOf_concat]
    by_cases hmode : other = mode
    · subst hmode
      rw [if_pos rfl, if_pos rfl, h.modes, RunningAverage.foldl_add_concat]
    · rw [if_neg hmode, if_neg (Ne.symm hmode), List.append_nil, h.modes]
  total := by
    show m.totalCalls + 1 = _
    rw [h.total]
    simp
  empty := by
    obtain ⟨n, hn, he⟩ := h.empty
    cases isEmpty with
    | false => exact ⟨n, by simp; omega, he⟩
    | true =>
      refine ⟨n + 1, by simp; omega, ?_⟩
      show m.emptyInputs + 1 = _
      rw [he]
      simp
  attempted := h.attempted
  succeeded := h.succeeded

theorem transfer (h : m.Accounts calls transfers) (success : Bool) :
    (m.transfer success).Accounts calls (transfers ++ [success]) where
  modes := h.modes
  total := h.total
  empty := h.empty
  attempted := by
    show m.transfersAttempted + 1 = _
    rw [h.attempted]
    simp
  succeeded := by
    cases success with
    | false =>
      show m.transfersSucceeded = _
      rw [h.succeeded]
      simp
    | true =>
      show m.transfersSucceeded + 1 = _
      rw [h.succeeded]
      simp

/-- The other counters have no part in it. -/
theorem of_sameCalls {n : Metrics} (h : m.Accounts calls transfers) (hn : m.SameCalls n) :
    n.Accounts calls transfers where
  modes := hn.modes ▸ h.modes
  total := hn.totalCalls ▸ h.total
  empty := hn.emptyInputs ▸ h.empty
  attempted := hn.transfersAttempted ▸ h.attempted
  succeeded := hn.transfersSucceeded ▸ h.succeeded

/-! ## What is accounted for, in numbers -/

section
variable (h : m.Accounts calls transfers) (hcalls : calls.length < 2 ^ 64)
include h hcalls

theorem toNat_totalCalls : m.totalCalls.toNat = calls.length := by
  rw [h.total]
  exact UInt64.toNat_ofNat_of_lt' hcalls

theorem emptyInputs_le : m.emptyInputs ≤ m.totalCalls := by
  obtain ⟨n, hn, hempty⟩ := h.empty
  rw [UInt64.le_iff_toNat_le, h.toNat_totalCalls hcalls, hempty]
  exact Nat.le_trans (UInt64.toNat_ofNat_of_lt' (Nat.lt_of_le_of_lt hn hcalls)).le hn

theorem toNat_count (mode : Mode) :
    (m.modes.get mode).count.toNat = (calls.map (·.1)).count mode := by
  rw [h.modes, RunningAverage.toNat_count (length_confidencesOf_lt hcalls mode),
    length_confidencesOf]

end

end Accounts

end Metrics

/-! ## Engines -/

/-- What an engine leaves of metrics: after changes to other counters, one call of its mode with
    the confidence of its result. -/
structure Metrics.Records (m : Metrics) (mode : Mode) (left : Result × Metrics) : Prop where
  mode_eq : left.1.mode = mode
  called : ∃ n isEmpty, left.2 = n.call mode left.1.confidence isEmpty ∧ m.SameCalls n

section
variable (r : Registry) (c : Config) (m : Metrics) (input : Text) (context : Json)

theorem Classical.records_reason : m.Records .classical (reason r c m input context) := by
  unfold reason
  dsimp only
  split
  · exact ⟨rfl, m, true, rfl, .refl m⟩
  · exact ⟨rfl, _, false, rfl, ⟨rfl, rfl, rfl, rfl, rfl⟩⟩

theorem Modal.records_reason : m.Records .modal (reason r c m input context) := by
  unfold reason
  dsimp only
  split
  · exact ⟨rfl, m, true, rfl, .refl m⟩
  · split
    · exact ⟨rfl, m, true, rfl, .refl m⟩
    · exact ⟨rfl, _, false, rfl, ⟨rfl, rfl, rfl, rfl, rfl⟩⟩

theorem Probability.records_reason : m.Records .probabilistic (reason r m input context) := by
  unfold reason
  dsimp only
  split
  · exact ⟨rfl, m, true, rfl, .refl m⟩
  · refine ⟨rfl, _, false, rfl, ?_⟩
    split
    · exact ⟨rfl, rfl, rfl, rfl, rfl⟩
    · exact .refl m

theorem Quantum.records_reason : m.Records .quantum (reason r c m input context) := by
  unfold reason
  dsimp only
  split
  · exact ⟨rfl, m, true, rfl, .refl m⟩
  · exact ⟨rfl, _, false, rfl, ⟨rfl, rfl, rfl, rfl, rfl⟩⟩

theorem Decision.records_reason : m.Records .decision (reason r c m input context) := by
  unfold reason
  dsimp only
  split
  · exact ⟨rfl, m, true, rfl, .refl m⟩
  · exact ⟨rfl, _, false, rfl, ⟨rfl, rfl, rfl, rfl, rfl⟩⟩

theorem CrossDomainSolution.records_reason :
    m.Records .crossDomain (reason r c m input context) := by
  unfold reason
  split
  · exact ⟨rfl, m, _, rfl, .refl m⟩
  · exact ⟨rfl, m, true, rfl, .refl m⟩

/-- Every engine records one call of its mode. -/
theorem Engine.records_evaluate (mode : Mode) :
    m.Records mode (evaluate r c m mode input context) := by
  cases mode with
  | classical => exact Classical.records_reason ..
  | modal => exact Modal.records_reason ..
  | probabilistic => exact Probability.records_reason ..
  | quantum => exact Quantum.records_reason ..
  | decision => exact Decision.records_reason ..
  | crossDomain => exact CrossDomainSolution.records_reason ..

end

namespace Engine

variable {e : Engine} {calls : List (Mode × Single)} {transfers : List Bool}

/-! ## Requests -/

theorem accounts_reason (h : e.metrics.Accounts calls transfers) (mode : Mode) (input : Text)
    (context : Json) :
    let left := e.reason mode input context
    left.1.mode = mode ∧
      left.2.metrics.Accounts (calls ++ [(left.1.mode, left.1.confidence)]) transfers := by
  have hrecords := records_evaluate e.registry e.config e.metrics input context mode
  obtain ⟨n, isEmpty, hcall, hn⟩ := hrecords.called
  refine ⟨hrecords.mode_eq, ?_⟩
  show (evaluate e.registry e.config e.metrics mode input context).2.Accounts
    (calls ++ [((evaluate e.registry e.config e.metrics mode input context).1.mode, _)]) transfers
  rw [hrecords.mode_eq, hcall]
  exact (h.of_sameCalls hn).call ..

theorem accounts_reasonIn (h : e.metrics.Accounts calls transfers) (input : Text) (context : Json)
    (modes : List Mode) :
    let left := e.reasonIn input context modes
    left.1.map (fun r => r.2.mode) = modes ∧
      left.2.metrics.Accounts (calls ++ left.1.map fun r => (r.2.mode, r.2.confidence))
        transfers := by
  -- A mode is counted before the rest of the modes come, so the calls so far are any.
  induction modes generalizing e calls with
  | nil => exact ⟨rfl, by simpa [reasonIn] using h⟩
  | cons mode modes ih =>
    obtain ⟨hmode, hfirst⟩ := accounts_reason h mode input context
    obtain ⟨hmodes, hrest⟩ := ih hfirst
    rw [List.append_assoc] at hrest
    exact ⟨congrArg₂ List.cons hmode hmodes, hrest⟩

/-- A request without calls leaves the metrics as they are. -/
theorem metrics_answer {q : Request} (hq : q.modes = []) (e : Engine) :
    (e.answer q).2.metrics = e.metrics := by
  cases q with
  | register x => rw [answer_register]
  | seed => rw [answer_seed]
  | reason | reasonAll | across | transfer | analogies | abstractions | synthesize => cases hq
  | _ => rfl

/-- A registration is no call, whether it is accepted or refused. -/
theorem calls_registered {q : Request} (outcome : Except Registry.Error Engine)
    (hq : e.answer q = e.registered outcome) :
    (e.answer q).1.calls = [] ∧ (e.answer q).1.transfers = [] := by
  rw [hq]
  cases outcome <;> exact ⟨rfl, rfl⟩

/-- A request records the calls that its answer reports, in the modes of the request. -/
theorem accounts_answer (h : e.metrics.Accounts calls transfers) (q : Request) :
    (e.answer q).1.calls.map (·.1) = q.modes ∧
    (e.answer q).1.transfers.length = (if q.isTransfer then 1 else 0) ∧
      (e.answer q).2.metrics.Accounts (calls ++ (e.answer q).1.calls)
        (transfers ++ (e.answer q).1.transfers) := by
  have hno : e.metrics.Accounts (calls ++ []) (transfers ++ []) := by
    rwa [List.append_nil, List.append_nil]
  have hcall : e.metrics.Accounts calls (transfers ++ []) := by rwa [List.append_nil]
  cases q with
  | reason mode input context =>
    obtain ⟨hmode, hleft⟩ := accounts_reason hcall mode input context
    exact ⟨congrArg (fun mode => [mode]) hmode, rfl, hleft⟩
  | reasonAll input context =>
    obtain ⟨hmodes, hleft⟩ := accounts_reasonIn hcall input context Mode.all
    refine ⟨?_, rfl, hleft⟩
    show List.map _ (List.map _ _) = Mode.all
    rw [List.map_map]
    exact hmodes
  | across | abstractions | synthesize => exact ⟨rfl, rfl, hcall.call ..⟩
  | analogies source target =>
    have hn : e.metrics.SameCalls (e.metrics.addAnalogies
        (AnalogySearch.of e.registry e.config source target).found.length) :=
      ⟨rfl, rfl, rfl, rfl, rfl⟩
    exact ⟨rfl, rfl, (hcall.of_sameCalls hn).call ..⟩
  | transfer source target knowledge =>
    have htried := h.transfer (e.transfer source target knowledge).1.success
    exact ⟨rfl, rfl, htried.call ..⟩
  | register x =>
    obtain ⟨hcalls, htransfers⟩ := calls_registered (q := .register x) (e.register x) rfl
    rw [hcalls, htransfers, metrics_answer rfl]
    exact ⟨rfl, rfl, hno⟩
  | seed =>
    obtain ⟨hcalls, htransfers⟩ := calls_registered (q := .seed) e.seed (by rw [answer])
    rw [hcalls, htransfers, metrics_answer rfl]
    exact ⟨rfl, rfl, hno⟩
  | _ => exact ⟨rfl, rfl, hno⟩

/-! ## Sessions -/

/-- A session records the calls that its answers report, in the modes of its requests. -/
theorem accounts_session (h : e.metrics.Accounts calls transfers) (requests : List Request) :
    let answers := (e.session requests).1
    (answers.flatMap Answer.calls).map (·.1) = requests.flatMap Request.modes ∧
    (answers.flatMap Answer.transfers).length = requests.countP Request.isTransfer ∧
      (e.session requests).2.metrics.Accounts (calls ++ answers.flatMap Answer.calls)
        (transfers ++ answers.flatMap Answer.transfers) := by
  induction requests generalizing e calls transfers with
  | nil => exact ⟨rfl, rfl, by simpa [session] using h⟩
  | cons q requests ih =>
    obtain ⟨hmodes, hlength, hfirst⟩ := accounts_answer h q
    obtain ⟨hmodes', hlength', hrest⟩ := ih hfirst
    rw [session_cons]
    refine ⟨?_, ?_, ?_⟩
    · rw [List.flatMap_cons, List.map_append, hmodes, hmodes', List.flatMap_cons]
    · rw [List.flatMap_cons, List.length_append, hlength, hlength', List.countP_cons]
      omega
    · rw [List.flatMap_cons, List.flatMap_cons, ← List.append_assoc, ← List.append_assoc]
      exact hrest

/-- The mappings that the transfers of a session add to those that were there. -/
def transferred (e : Engine) : List Request → List Mapping
  | [] => []
  | q :: requests =>
    let left := (e.answer q).2
    (if q.isTransfer then left.registry.mappings.drop e.registry.mappings.length else []) ++
      left.transferred requests

/-- A transfer appends a mapping if it succeeds, and else none. -/
theorem mappings_transfer (h : e.registry.Reachable) (source target : Text) (knowledge : Json) :
    ∃ ms, (e.transfer source target knowledge).2.registry.mappings = e.registry.mappings ++ ms ∧
      ms.length = [(e.transfer source target knowledge).1.success].count true := by
  cases hsuccess : (e.transfer source target knowledge).1.success with
  | true =>
    obtain ⟨_, _, m, -, hm, -, hadd⟩ := Transfer.of_success h.wellFormed hsuccess
    exact ⟨[m], congrArg Registry.mappings (hm.recordMapping (hadd e.registry)), rfl⟩
  | false =>
    refine ⟨[], ?_, rfl⟩
    show (Transfer.recordMapping _ e.registry).mappings = _
    unfold Transfer.recordMapping
    rw [Transfer.mapping_of_failure hsuccess, List.append_nil]

theorem length_transferred_cons (h : e.registry.Reachable) (q : Request)
    (requests : List Request) :
    (e.transferred (q :: requests)).length =
      (e.answer q).1.transfers.count true + ((e.answer q).2.transferred requests).length := by
  rw [transferred, List.length_append]
  congr 1
  cases q with
  | transfer source target knowledge =>
    obtain ⟨ms, hms, hlength⟩ := mappings_transfer h source target knowledge
    show ((e.transfer source target knowledge).2.registry.mappings.drop _).length = _
    rw [hms, List.drop_left]
    exact hlength
  | register x =>
    rw [(calls_registered (q := .register x) (e.register x) rfl).2]
    rfl
  | seed =>
    rw [(calls_registered (q := .seed) e.seed (by rw [answer])).2]
    rfl
  | _ => rfl

theorem length_transferred (h : e.registry.Reachable) (requests : List Request) :
    (e.transferred requests).length =
      ((e.session requests).1.flatMap Answer.transfers).count true := by
  induction requests generalizing e with
  | nil => rfl
  | cons q requests ih =>
    rw [length_transferred_cons h, ih (reachable_answer q h), session_cons, List.flatMap_cons,
      List.count_append]

end Engine

/-- Every transfer is a call. -/
theorem Request.countP_isTransfer_le (requests : List Request) :
    requests.countP Request.isTransfer ≤ (requests.flatMap Request.modes).length := by
  induction requests with
  | nil => exact Nat.le_refl 0
  | cons q requests ih =>
    have hq : (if q.isTransfer then 1 else 0) ≤ q.modes.length := by
      cases q <;> simp [isTransfer, modes]
    rw [List.countP_cons, List.flatMap_cons, List.length_append]
    omega

/-- Every call is in one of the modes. -/
theorem Mode.sum_count (modes : List Mode) :
    (Mode.all.map fun mode => modes.count mode).sum = modes.length := by
  induction modes with
  | nil => rfl
  | cons mode modes ih =>
    simp only [all, List.map_cons, List.map_nil, List.sum_cons, List.sum_nil, List.count_cons,
      List.length_cons] at ih ⊢
    cases mode <;> simp <;> omega

namespace Engine

/-- **The metrics account for every call once.**  After a session of a new engine, the calls are
    counted in all and in their modes, each as often as the requests make it, and no call lies
    outside the modes; transfers are counted when they are asked for, and those that succeed by
    the mappings that they append.  The average of a mode takes in the confidences of its calls
    one by one, and taken in exactly they come to their mean, which is a score.  A request without
    a call, such as a check of an argument or a registration, leaves the metrics alone. -/
theorem session_accounted {c : Config} {e : Engine} (h : e = .bare c ∨ e = .seeded c)
    (requests : List Request) (hcalls : (requests.flatMap Request.modes).length < 2 ^ 64) :
    let left := (e.session requests).2
    let m := left.metrics
    let made := requests.flatMap Request.modes
    let calls := (e.session requests).1.flatMap Answer.calls
    m.totalCalls.toNat = made.length ∧
    m.totalCalls.toNat = (Mode.all.map fun mode => (m.modes.get mode).count.toNat).sum ∧
    (∀ mode, (m.modes.get mode).count.toNat = made.count mode) ∧
    m.emptyInputs ≤ m.totalCalls ∧
    m.transfersAttempted.toNat = requests.countP Request.isTransfer ∧
    m.transfersSucceeded.toNat = (e.transferred requests).length ∧
    calls.map (·.1) = made ∧
    (∀ mode,
      let xs := confidencesOf mode calls
      m.modes.get mode = xs.foldl RunningAverage.add .empty ∧
      (exactAverage xs).average = (xs.map fun x => (Score.clamp x).value).sum / made.count mode ∧
      0 ≤ (exactAverage xs).average ∧ (exactAverage xs).average ≤ 1) ∧
    (∀ source target knowledge, left.registry.mappings <+:
      (left.transfer source target knowledge).2.registry.mappings) ∧
    ∀ q : Request, q.modes = [] → (left.answer q).2.metrics = m := by
  intro left m made calls
  have hreachable : e.registry.Reachable := by
    rcases h with rfl | rfl
    · exact .empty
    · exact reachable_seeded c
  have hfresh : e.metrics.Accounts [] [] := by
    rcases h with rfl | rfl <;> exact Metrics.accounts_empty
  obtain ⟨hmodes, htransfers, haccounts⟩ := accounts_session hfresh requests
  change calls.map (·.1) = made at hmodes
  change m.Accounts calls ((e.session requests).1.flatMap Answer.transfers) at haccounts
  have hlength : calls.length = made.length := by rw [← hmodes, List.length_map]
  have hlimit : calls.length < 2 ^ 64 := hlength ▸ hcalls
  have htotal : m.totalCalls.toNat = made.length := hlength ▸ haccounts.toNat_totalCalls hlimit
  have hcount (mode : Mode) : (m.modes.get mode).count.toNat = made.count mode :=
    hmodes ▸ haccounts.toNat_count hlimit mode
  have hattempts : requests.countP Request.isTransfer < 2 ^ 64 :=
    Nat.lt_of_le_of_lt (Request.countP_isTransfer_le requests) hcalls
  refine ⟨htotal, ?_, hcount, haccounts.emptyInputs_le hlimit, ?_, ?_, hmodes, fun mode => ?_,
    fun source target knowledge => ?_, fun q hq => metrics_answer hq left⟩
  · simp only [hcount]
    rw [Mode.sum_count, htotal]
  · rw [haccounts.attempted, htransfers]
    exact UInt64.toNat_ofNat_of_lt' hattempts
  · rw [haccounts.succeeded, length_transferred hreachable]
    refine UInt64.toNat_ofNat_of_lt' (Nat.lt_of_le_of_lt List.count_le_length ?_)
    rwa [htransfers]
  · obtain ⟨haverage, hmem⟩ := exactAverage_eq (length_confidencesOf_lt hlimit mode)
    rw [length_confidencesOf, hmodes] at haverage
    exact ⟨haccounts.modes mode, haverage, hmem⟩
  · obtain ⟨ms, hms, -⟩ :=
      mappings_transfer (reachable_session requests hreachable) source target knowledge
    rw [hms]
    exact List.prefix_append ..

/-- A transfer that succeeds, one from a domain that is not there, a check of an argument and a
    question put to every mode make eight calls, three of them across domains. -/
theorem session_accounted_transfers :
    let knowledge := Json.ofMembers [("adaptation", .ofText "feedback driven change"),
      ("feedback", .ofText "regulation")]
    let requests : List Request := [.transfer "biology" "technology" knowledge,
      .transfer "alchemy" "technology" knowledge,
      .validateArgument (Text.ofStrings ["if a then b", "a"]) "b", .reasonAll "" (.object [])]
    let m := ((seeded {}).session requests).2.metrics
    (requests.flatMap Request.modes).length < 2 ^ 64 ∧ m.totalCalls.toNat = 8 ∧
      (m.modes.get .crossDomain).count.toNat = 3 ∧ m.transfersAttempted.toNat = 2 ∧
      m.transfersSucceeded.toNat = 1 ∧ ((seeded {}).transferred requests).length = 1 := by
  intro knowledge requests m
  have hcalls : (requests.flatMap Request.modes).length < 2 ^ 64 := by decide
  have hmappings : ((seeded {}).transferred requests).length = 1 := by decide +kernel
  obtain ⟨htotal, -, hcount, -, hattempted, hsucceeded, -⟩ :=
    session_accounted (.inr rfl) requests hcalls
  refine ⟨hcalls, htotal, hcount .crossDomain, hattempted, ?_, hmappings⟩
  rw [← hmappings]
  exact hsucceeded

end Engine

end Reasoning
