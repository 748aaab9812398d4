/-
  Carrying knowledge from one domain to another.

  Every concept of the knowledge is paired with a concept of the target domain, each target
  at most once.  A mapping that is already known decides, else the target that is most alike
  in features.  The transfer succeeds if enough concepts find a similar partner, and then its
  strongest pair is recorded as a new mapping.

  * `Pairing`: the pairs found so far and what is left over;
  * `Transfer.ofPairing`: what comes of a pairing;
  * `Transfer.of`: the outcome of a transfer;
  * `Transfer.recordMapping`, `Transfer.recordMetrics`: its traces.
-/
import Reasoning.Domain.Solution
import Reasoning.Domain.Structure
import Reasoning.Metrics
import Reasoning.Text.Search

namespace Reasoning

/-! ## Pairing concepts -/

/-- A concept of the knowledge, the target concept it goes to, and how alike they are. -/
structure ConceptPair where
  concept : Text
  target : Text
  similarity : Single
  deriving DecidableEq

/-- A target concept that is considered for a concept; an empty name stands for none. -/
structure Candidate where
  target : Text
  similarity : Single

/-- The pairs found, in the order of the concepts, and the concepts that found no partner. -/
structure Pairing where
  pairs : List ConceptPair
  unpaired : List Text
  deriving DecidableEq

namespace Pairing

/-- Whether a target concept is taken. -/
def uses (p : Pairing) (target : Text) : Bool := p.pairs.any (·.target == target)

end Pairing

/-- What a transfer goes by: the domains, the knowledge, the known mappings and the similarity
    that a pair has to exceed. -/
structure TransferPlan where
  source : Text
  target : Text
  sourceConcepts : Dict Concept
  targetConcepts : Dict Concept
  knowledge : Json
  mappings : List Mapping
  threshold : Single

namespace TransferPlan

/-- The features of a concept: its words, its properties in the source domain, and the
    keywords of the value that the knowledge gives it. -/
def profile (plan : TransferPlan) (concept : Text) : List Text :=
  let properties := ((Dict.get? plan.sourceConcepts concept.lower).map (·.properties)).getD []
  let value := (plan.knowledge.member? concept).getD .null
  Text.union concept.words
    ((properties.filter fun p => !p.isEmpty) ++ Signature.valueKeywords value)

/-- The known mapping of a concept to a target that is free. -/
def established? (plan : TransferPlan) (p : Pairing) (concept : Text) : Option Mapping :=
  plan.mappings.find? fun m =>
    m.sourceDomain == plan.source && m.targetDomain == plan.target &&
      m.sourceConcept.lower == concept.lower &&
      Dict.contains plan.targetConcepts m.targetConcept && !p.uses m.targetConcept

/-- The more similar of a candidate and a target concept, the candidate if neither is. -/
def better (profile : List Text) (best : Candidate) (c : Text × Concept) : Candidate :=
  let s := similarity profile c.2.features
  if best.similarity < s then ⟨c.1, s⟩ else best

/-- The partner of a concept: that of an established mapping, else the most similar target
    concept that is free, the first of several. -/
def candidate (plan : TransferPlan) (p : Pairing) (concept : Text) : Candidate :=
  let known : Candidate := match plan.established? p concept with
    | some m => ⟨m.targetConcept, m.similarity⟩
    | none => ⟨[], 0⟩
  if known.target.isEmpty then
    (plan.targetConcepts.filter fun c => !p.uses c.1).foldl
      (better (plan.profile concept)) known
  else known

/-- Pairs one concept more. -/
def step (plan : TransferPlan) (p : Pairing) (concept : Text) : Pairing :=
  let c := plan.candidate p concept
  if !c.target.isEmpty && decide (plan.threshold < c.similarity) then
    { p with pairs := p.pairs ++ [⟨concept, c.target, c.similarity⟩] }
  else { p with unpaired := p.unpaired ++ [concept] }

/-- Pairs the concepts in their order. -/
def pairing (plan : TransferPlan) (concepts : List Text) : Pairing :=
  concepts.foldl plan.step ⟨[], []⟩

end TransferPlan

/-! ## Renaming in knowledge -/

/-- The name of a concept in the target domain; a concept that has none keeps its name. -/
def renamed (names : Dict Text) (concept : Text) : Text :=
  (Dict.get? names concept).getD concept

/-- Puts the names of the target domain into some knowledge: for the keys of an object, for
    the texts of an array, and wherever a concept occurs in a text. -/
def Json.rename (names : Dict Text) : Json → Json
  | .object ms => .object (Dict.ofList (ms.map fun m => (renamed names m.1, m.2)))
  | .array es => .array (es.map fun e => match e with
    | .string s => .string (renamed names s)
    | e => e)
  | .string s => .string (names.foldl (fun t n => Text.replaceAll t n.1 n.2) s.lower)
  | j => j

/-! ## Transfers -/

/-- What is wrong with a transfer. -/
inductive Transfer.Issue where
  | unknownSource (name : Text)
  | unknownTarget (name : Text)
  | noConcepts
  | noAnalogue (concept target : Text)
  | incompatible (compatibility threshold : Single)
  deriving DecidableEq

def Transfer.Issue.message : Issue → Text
  | unknownSource name => Text.ofString "Unknown source domain '" ++ name ++ Text.ofString "'"
  | unknownTarget name => Text.ofString "Unknown target domain '" ++ name ++ Text.ofString "'"
  | noConcepts => "No concepts found in knowledge"
  | noAnalogue concept target =>
    Text.ofString "No analogue for '" ++ concept ++ Text.ofString "' in " ++ target
  | incompatible compatibility threshold =>
    Text.ofString "Compatibility " ++ compatibility.fixed 2 ++ Text.ofString " below " ++
      threshold.fixed 2

/-- The outcome of a transfer. -/
structure Transfer where
  success : Bool
  sourceDomain : Text
  targetDomain : Text
  outline : KnowledgeStructure
  /-- The target concept of each concept that has one. -/
  conceptMap : Dict Text
  /-- How alike each concept is to its target concept. -/
  similarity : Dict Single
  transferred : Json
  compatibility : Single
  issues : List Transfer.Issue
  /-- The mapping that is recorded. -/
  mapping : Option Mapping

namespace Transfer

/-- How well a transfer fits: the share of the concepts that are mapped and the mean of their
    similarities. -/
def compatibilityOf (concepts : Nat) (similarity : Dict Single) : Single :=
  let mapped : Single := .ofNat similarity.length / .ofNat concepts
  let mean := if similarity.isEmpty then 0 else Score.mean (Dict.values similarity)
  Score.clamp (0.6 * mapped + 0.4 * mean)

/-- The entry with the largest number, the first of several. -/
def strongest? : Dict Single → Option (Text × Single)
  | [] => none
  | e :: d => some (d.foldl (fun best e => if best.2 < e.2 then e else best) e)

/-- What is said of a transfer of these concepts. -/
def reasoning (conceptMap : Dict Text) : Text :=
  Text.ofString "Transferred " ++ Text.ofNat conceptMap.length ++
    Text.ofString " concept(s): " ++
    Text.join ", " (conceptMap.map fun e => e.1 ++ Text.ofString " -> " ++ e.2)

/-- The outcome of a transfer whose concepts are paired. -/
def ofPairing (c : Config) (sourceName targetName : Text) (knowledge : Json)
    (s : KnowledgeStructure) (p : Pairing) : Transfer :=
  let conceptMap := Dict.ofList (p.pairs.map fun pair => (pair.concept, pair.target))
  let similarity := Dict.ofList (p.pairs.map fun pair => (pair.concept, pair.similarity))
  let compatibility := compatibilityOf s.concepts.length similarity
  let success := !conceptMap.isEmpty && decide (c.transferValidityThreshold ≤ compatibility)
  { success := success
    sourceDomain := sourceName
    targetDomain := targetName
    outline := s
    conceptMap := conceptMap
    similarity := similarity
    transferred := knowledge.rename conceptMap
    compatibility := compatibility
    issues := p.unpaired.map (Issue.noAnalogue · targetName) ++
      (if compatibility < c.transferValidityThreshold then
        [.incompatible compatibility c.transferValidityThreshold]
      else [])
    mapping :=
      if success then
        (strongest? similarity).map fun e =>
          ⟨sourceName, targetName, e.1, renamed conceptMap e.1, e.2, compatibility,
            reasoning conceptMap⟩
      else none }

/-- The transfer of knowledge with these concepts from one domain to another. -/
def between (r : Registry) (c : Config) (source target : Domain) (sourceName targetName : Text)
    (knowledge : Json) (s : KnowledgeStructure) : Transfer :=
  let plan : TransferPlan := ⟨sourceName, targetName, source.concepts, target.concepts,
    knowledge, r.mappings, c.transferSimilarityThreshold⟩
  ofPairing c sourceName targetName knowledge s (plan.pairing s.concepts)

/-- Transfers knowledge between the domains of two names.  Without both domains and at least
    one concept nothing is transferred. -/
def of (r : Registry) (c : Config) (fromName toName : Text) (knowledge : Json) : Transfer :=
  let sourceName := Domain.lookupName fromName
  let targetName := Domain.lookupName toName
  let s := KnowledgeStructure.ofJson knowledge
  match r.domain? sourceName, r.domain? targetName, s.concepts with
  | some source, some target, _ :: _ =>
    between r c source target sourceName targetName knowledge s
  | source, target, concepts =>
    { success := false
      sourceDomain := sourceName
      targetDomain := targetName
      outline := s
      conceptMap := []
      similarity := []
      transferred := knowledge
      compatibility := 0
      issues :=
        (if source.isNone then [.unknownSource sourceName] else []) ++
        (if target.isNone then [.unknownTarget targetName] else []) ++
        (if concepts.isEmpty then [.noConcepts] else [])
      mapping := none }

/-- The registry with the mapping of the transfer, if it has one. -/
def recordMapping (t : Transfer) (r : Registry) : Registry :=
  match t.mapping with
  | some m => (r.addMapping m).toOption.getD r
  | none => r

/-- Records the attempt and the call. -/
def recordMetrics (t : Transfer) (m : Metrics) : Metrics :=
  (m.transfer t.success).call .crossDomain t.compatibility t.outline.concepts.isEmpty

def toJson (t : Transfer) : Json :=
  .object (Dict.ofList (Json.members (.ofMembers [
      ("success", .bool t.success), ("source_domain", .string t.sourceDomain),
      ("target_domain", .string t.targetDomain), ("structure", t.outline.toJson),
      ("concept_map", .ofDict .string t.conceptMap),
      ("similarity", .ofDict .ofSingle t.similarity), ("transferred", t.transferred),
      ("compatibility", .ofSingle t.compatibility),
      ("issues", .ofTexts (t.issues.map Issue.message))]) ++
    t.mapping.toList.map fun m => (Text.ofString "mapping", m.toJson)))

end Transfer

end Reasoning
