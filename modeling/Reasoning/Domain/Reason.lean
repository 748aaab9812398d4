/-
  Reasoning across domains: a problem solved in several domains, told as a proof.
-/
import Reasoning.Domain.Solution
import Reasoning.Metrics
import Reasoning.Result

namespace Reasoning.CrossDomainSolution

/-- Records the call. -/
def recordMetrics (s : CrossDomainSolution) (m : Metrics) : Metrics :=
  m.call .crossDomain s.confidence s.isEmpty

/-- The proof: the problem, what each domain says, what they share, and the conclusion. -/
def proof (s : CrossDomainSolution) : Ledger :=
  let l := Ledger.empty.push .premise s.problem.trim "problem" 1 []
  let l := s.solutions.foldl
    (fun l d => l.push .inference d.approach (d.domain ++ Text.ofString " knowledge")
      d.confidence [1])
    l
  let seqs := List.range' 2 s.solutions.length
  let l := s.unified.insights.foldl
    (fun l i => l.push .inference i "shared pattern" s.unified.confidence seqs) l
  l.push .conclusion s.unified.approach
    (Text.ofString "unified across " ++ Text.ofNat s.domains.length ++
      Text.ofString " domain(s)")
    s.confidence (if seqs.isEmpty then [1] else seqs)

/-- How uncertain the solution is: unknown domains, domains that had to stand in, and what
    the validation found. -/
def uncertainty (s : CrossDomainSolution) : Uncertainty where
  level := Score.clamp (1 - s.confidence)
  sources :=
    (s.unknownDomains.map fun d =>
      Text.ofString "Unknown domain '" ++ d ++ Text.ofString "'") ++
    (if s.defaultDomains then
      [Text.ofString "No domain matched the problem; using defaults"] else []) ++
    s.validations.flatMap fun v => v.issues.map fun issue =>
      v.domain ++ Text.ofString ": " ++ issue
  mitigations :=
    if s.defaultDomains then [Text.ofString "Name the domains explicitly"] else []

def answer (s : CrossDomainSolution) : Result where
  mode := .crossDomain
  confidence := s.confidence
  conclusions := s.unified.approach :: s.unified.insights
  proof := s.proof
  alternatives := s.solutions.map (·.approach)
  uncertainty := s.uncertainty
  evidence := s.solutions.map fun d => d.domain ++ Text.ofString ": " ++ Text.join ", " d.concepts
  noEvidence := false
  details := s.toJson

/-- Solves the problem of an input in the domains that the context names, and records the
    call. -/
def reason (r : Registry) (c : Config) (m : Metrics) (input : Text) (context : Json) :
    Result × Metrics :=
  if input.hasAlnum then
    let s := of r c input (context.textsField "domains")
    (s.answer, s.recordMetrics m)
  else
    let result := Result.neutral .crossDomain "No problem statement" (.object []) []
    (result, m.call .crossDomain result.confidence true)

end Reasoning.CrossDomainSolution
