/-
  Sessions: requests to one engine, answered in their order.

  * `Request`, `Answer`: what can be asked, and what comes back;
  * `Request.isQuery`: the requests that leave the registry as it is;
  * `Engine.answer`: one request, `Engine.session`: one after the other.
-/
import Reasoning.Engine

namespace Reasoning

/-! ## Requests and answers -/

/-- A request to an engine. -/
inductive Request where
  | reason (mode : Mode) (input : Text) (context : Json)
  /-- Every mode in turn. -/
  | reasonAll (input : Text) (context : Json)
  | validateArgument (premises : List Text) (conclusion : Text)
  | across (problem : Text) (domains : List Text)
  | transfer (source target : Text) (knowledge : Json)
  | analogies (source : Json) (target : Text)
  | abstractions (concepts domains : List Text)
  | synthesize (insights domains : List Text)
  | distribution (id : Text)
  | domain (name : Text)
  | metrics
  | config
  | records (collection : Collection)
  | domainNames
  | mappingCount
  | summary
  | register (record : Record)
  /-- Adds the usual knowledge. -/
  | seed

/-- An answer of an engine. -/
inductive Answer where
  | result (r : Result)
  | results (rs : List (Mode × Result))
  | argument (a : Classical.ArgumentCheck)
  | solution (s : CrossDomainSolution)
  | transfer (t : Transfer)
  | analogies (s : AnalogySearch)
  | abstractions (s : AbstractionSearch)
  | synthesis (s : InsightSynthesis)
  | distribution (d : Option Distribution)
  | domain (d : Option Domain)
  | metrics (m : Metrics)
  | config (c : Config)
  | records (rs : List Json)
  | names (ns : List Text)
  | count (n : Nat)
  | summary (j : Json)
  | registered
  | refused (e : Registry.Error)

namespace Request

/-- The request asks without leaving anything in the registry. -/
def isQuery : Request → Bool
  | .transfer .. | .register _ | .seed => false
  | _ => true

end Request

/-! ## Answering -/

namespace Engine

/-- The answer to a registration; a refusal leaves the engine as it was. -/
def registered (e : Engine) : Except Registry.Error Engine → Answer × Engine
  | .ok e => (.registered, e)
  | .error why => (.refused why, e)

/-- Answers one request. -/
def answer (e : Engine) : Request → Answer × Engine
  | .reason mode input context =>
    let (r, e) := e.reason mode input context
    (.result r, e)
  | .reasonAll input context =>
    let (rs, e) := e.reasonIn input context Mode.all
    (.results rs, e)
  | .validateArgument premises conclusion =>
    (.argument (e.validateArgument premises conclusion), e)
  | .across problem domains =>
    let (s, e) := e.across problem domains
    (.solution s, e)
  | .transfer source target knowledge =>
    let (t, e) := e.transfer source target knowledge
    (.transfer t, e)
  | .analogies source target =>
    let (s, e) := e.analogies source target
    (.analogies s, e)
  | .abstractions concepts domains =>
    let (s, e) := e.abstractions concepts domains
    (.abstractions s, e)
  | .synthesize insights domains =>
    let (s, e) := e.synthesize insights domains
    (.synthesis s, e)
  | .distribution id => (.distribution (e.registry.distributions.find? id), e)
  | .domain name => (.domain (e.registry.domain? name), e)
  | .metrics => (.metrics e.metrics, e)
  | .config => (.config e.config, e)
  | .records collection => (.records (e.registry.records collection), e)
  | .domainNames => (.names e.registry.domainNames, e)
  | .mappingCount => (.count e.registry.mappings.length, e)
  | .summary => (.summary e.registry.summary, e)
  | .register record => e.registered (e.register record)
  | .seed => e.registered e.seed

/-- Answers requests in their order, each with the engine that the one before left. -/
def session (e : Engine) : List Request → List Answer × Engine
  | [] => ([], e)
  | r :: rs =>
    let (a, e) := e.answer r
    let (as, e) := session e rs
    (a :: as, e)

end Engine

/-! ## Writing answers -/

namespace Answer

/-- A result in short. -/
def overview (mode : Mode) (r : Result) : Json :=
  .ofMembers [("engine", .string mode.name), ("mode", .string r.mode.name),
    ("confidence", .ofSingle r.confidence), ("level", .ofSingle r.uncertainty.level),
    ("conclusions", .ofTexts r.conclusions), ("noEvidence", .bool r.noEvidence)]

def toJson : Answer → Json
  | result r => r.toJson
  | results rs => .array (rs.map fun r => overview r.1 r.2)
  | argument a => .ofMembers [("valid", .bool a.valid), ("rounds", .ofNat a.rounds),
      ("derivation", .array (a.derivation.steps.map Step.toJson)),
      ("derived", .ofTexts a.derived)]
  | solution s => s.toJson
  | transfer t => t.toJson
  | analogies s => s.toJson
  | abstractions s => s.toJson
  | synthesis s => s.toJson
  | distribution d => .ofOption Distribution.toJson d
  | domain d => .ofOption Domain.toJson d
  | metrics m => m.toJson
  | config c => c.toJson
  | records rs => .array rs
  | names ns => .ofTexts ns
  | count n => .ofNat n
  | summary j => j
  | registered => .ofText "ok"
  | refused e => .ofMembers [("error", .string e.message)]

end Answer

end Reasoning
