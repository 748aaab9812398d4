import Reasoning.Catalogue
import Reasoning.Classical.Argument
import Reasoning.Classical.Match
import Reasoning.Classical.Reason
import Reasoning.Classical.Rule
import Reasoning.Classical.Sanity
import Reasoning.CommandLine.Batch
import Reasoning.CommandLine.Options
import Reasoning.CommandLine.Report
import Reasoning.CommandLine.Run
import Reasoning.Config
import Reasoning.Connective
import Reasoning.Decision.Attribute
import Reasoning.Decision.Choice
import Reasoning.Decision.Gathering
import Reasoning.Decision.Reason
import Reasoning.Decision.Scores
import Reasoning.Decision.Verdict
import Reasoning.Dict
import Reasoning.Domain.Abstraction
import Reasoning.Domain.Analogy
import Reasoning.Domain.Basic
import Reasoning.Domain.Reason
import Reasoning.Domain.Similarity
import Reasoning.Domain.Solution
import Reasoning.Domain.Structure
import Reasoning.Domain.Synthesis
import Reasoning.Domain.Transfer
import Reasoning.Engine
import Reasoning.Extraction
import Reasoning.Json.Basic
import Reasoning.Json.Parser
import Reasoning.Json.Printer
import Reasoning.Ledger
import Reasoning.Main
import Reasoning.Metrics
import Reasoning.Modal.Detection
import Reasoning.Modal.Operator
import Reasoning.Modal.Reason
import Reasoning.Modal.Worlds
import Reasoning.Mode
import Reasoning.Numeric.Binary
import Reasoning.Numeric.Fixed
import Reasoning.Numeric.Numeral
import Reasoning.Numeric.Scalar
import Reasoning.Numeric.Shortest
import Reasoning.Pattern
import Reasoning.Probability.Cue
import Reasoning.Probability.Distribution
import Reasoning.Probability.Reason
import Reasoning.Proofs.Abstraction
import Reasoning.Proofs.Accounting
import Reasoning.Proofs.Affirmation
import Reasoning.Proofs.Alternatives
import Reasoning.Proofs.Analogy
import Reasoning.Proofs.Argument
import Reasoning.Proofs.Assignment
import Reasoning.Proofs.Audit
import Reasoning.Proofs.Average
import Reasoning.Proofs.Batch
import Reasoning.Proofs.Bounds
import Reasoning.Proofs.Budget
import Reasoning.Proofs.Canonical
import Reasoning.Proofs.Catalogue
import Reasoning.Proofs.ChoiceOrder
import Reasoning.Proofs.Completeness
import Reasoning.Proofs.Conditionals
import Reasoning.Proofs.Configuration
import Reasoning.Proofs.Consistency
import Reasoning.Proofs.Conversion
import Reasoning.Proofs.Detachment
import Reasoning.Proofs.Detection
import Reasoning.Proofs.Dict
import Reasoning.Proofs.Encoding
import Reasoning.Proofs.Encoding.Classical
import Reasoning.Proofs.Encoding.Decision
import Reasoning.Proofs.Encoding.Domain
import Reasoning.Proofs.Encoding.Modal
import Reasoning.Proofs.Encoding.Probability
import Reasoning.Proofs.Encoding.Quantum
import Reasoning.Proofs.Enumeration
import Reasoning.Proofs.Evaluation
import Reasoning.Proofs.Except
import Reasoning.Proofs.Footprint
import Reasoning.Proofs.Grammar
import Reasoning.Proofs.Grounding
import Reasoning.Proofs.Growth
import Reasoning.Proofs.Identification
import Reasoning.Proofs.Inference
import Reasoning.Proofs.Isolation
import Reasoning.Proofs.Ledger
import Reasoning.Proofs.Matching
import Reasoning.Proofs.Mention
import Reasoning.Proofs.Naming
import Reasoning.Proofs.Normalization
import Reasoning.Proofs.Occurrence
import Reasoning.Proofs.Order
import Reasoning.Proofs.Pairing
import Reasoning.Proofs.Pattern
import Reasoning.Proofs.Pieces
import Reasoning.Proofs.Precision
import Reasoning.Proofs.Premise
import Reasoning.Proofs.Printing
import Reasoning.Proofs.Ranking
import Reasoning.Proofs.Reading
import Reasoning.Proofs.Rearrangement
import Reasoning.Proofs.Recommendation
import Reasoning.Proofs.Regex
import Reasoning.Proofs.Registration
import Reasoning.Proofs.Renaming
import Reasoning.Proofs.Repetition
import Reasoning.Proofs.Replacement
import Reasoning.Proofs.Resolution
import Reasoning.Proofs.Risk
import Reasoning.Proofs.Rounding
import Reasoning.Proofs.Sanity
import Reasoning.Proofs.Search
import Reasoning.Proofs.Selection
import Reasoning.Proofs.Sentence
import Reasoning.Proofs.Similarity
import Reasoning.Proofs.Stem
import Reasoning.Proofs.Substitution
import Reasoning.Proofs.Symbols
import Reasoning.Proofs.Synthesis
import Reasoning.Proofs.Text
import Reasoning.Proofs.TextTransfer
import Reasoning.Proofs.Transfer
import Reasoning.Proofs.Unification
import Reasoning.Proofs.Utf8
import Reasoning.Proofs.Validity
import Reasoning.Proofs.Words
import Reasoning.Proofs.Worlds
import Reasoning.Proposition
import Reasoning.Quantum.Measurement
import Reasoning.Quantum.Operator
import Reasoning.Quantum.Reason
import Reasoning.Quantum.State
import Reasoning.Registry.Basic
import Reasoning.Registry.Record
import Reasoning.Registry.Seed
import Reasoning.Result
import Reasoning.Score
import Reasoning.Session
import Reasoning.Text.Basic
import Reasoning.Text.Regex
import Reasoning.Text.Search
import Reasoning.Text.Sentence
import Reasoning.Text.Utf8
import Reasoning.Text.Words
import Reasoning.Version
