/-
  Commands: what the program writes, and the code that it exits with.

  A run is a function of the arguments, the configuration, the standard input and the wording of
  JSON exceptions.  Code 0 is success, 1 a command line or a JSON value that cannot be used, 2 a
  transfer that fails or a batch with a line that is no request.

  Of the log only the warnings of a batch are told, without the time of day that each line begins
  with.  Debug lines, and warnings about settings and fields that are ignored, are left out.
-/
import Reasoning.CommandLine.Batch
import Reasoning.CommandLine.Options
import Reasoning.CommandLine.Report
import Reasoning.Json.Printer
import Reasoning.Version

namespace Reasoning.CommandLine

/-- What a run leaves: the exit code, what is written to the two outputs, and what is warned of
    before anything is written as an error. -/
structure Outcome where
  code : Nat
  output : Text
  errors : Text
  warnings : List Text
  deriving DecidableEq

/-! ## Messages -/

/-- The name of the program in a path. -/
def programName (path : Text) : Text :=
  ((path.splitWhere (· == '/'.toUInt8)).getLast?).getD []

def usage (program : Text) : Text :=
  line ["nyaya ", version, " - Multi-mode symbolic reasoning"] ++
  line [] ++
  line ["Usage: ", program, " <command> [options]"] ++
  line [] ++
  line ["Commands:"] ++
  line ["  reason --mode M TEXT          Reason in one mode (classical, modal,"] ++
  line ["                                probabilistic, quantum, decision, cross_domain)"] ++
  line ["  decide TEXT                   Pick among options"] ++
  line ["  across TEXT [--domains a,b]   Solve across knowledge domains"] ++
  line ["  transfer --from D --to D JSON Transfer knowledge between domains"] ++
  line ["  analogies --to D JSON         Find analogues in a domain"] ++
  line ["  batch                         JSON lines on stdin: ",
    "\x7b\"mode\",\"input\",\"context\"\x7d"] ++
  line ["  metrics                       Like batch, print only the metrics snapshot"] ++
  line ["  rules                         Show the registry catalogue"] ++
  line ["  help                          Show this help"] ++
  line [] ++
  line ["Options:"] ++
  line ["  --context JSON     Context object passed to the engine"] ++
  line ["  --json             Output as JSON"] ++
  line ["  --config PATH      Engine configuration (default: $NYAYA_CONFIG)"] ++
  line ["  --verbose          Enable verbose debug logging"] ++
  line ["  -v, --version      Show version"]

namespace Outcome

/-- A run that is refused with a message. -/
def refused (errors : Text) : Outcome := ⟨1, [], errors, []⟩

/-- How a command is used. -/
def usageOf (program command : Text) : Outcome :=
  refused (line ["Usage: ", program, " ", command])

end Outcome

section
variable (w : Json.Wording)

namespace Outcome

/-- A run that ends at a JSON value that cannot be used, with what was written and warned of
    before. -/
def invalidJson (written : Text) (warned : List Text) (e : Json.Exception) : Outcome :=
  ⟨1, written, line ["Error: invalid JSON: ", w e], warned⟩

/-- Writes a JSON value behind a text.  Only valid UTF-8 can be written. -/
def ofJson (code : Nat) (written : Text) (warned : List Text) (j : Json) : Outcome :=
  match j.print? with
  | some t => ⟨code, written ++ line [t], [], warned⟩
  | none => invalidJson w written warned (.unprintable j)

/-- Writes a JSON value or a report of it. -/
def report (code : Nat) (o : Options) (warned : List Text) (j : Json) (text : Text) : Outcome :=
  if o.json then ofJson w code [] warned j else ⟨code, text, [], warned⟩

end Outcome

/-! ## Commands -/

/-- Answers the command `reason`. -/
def reason (e : Engine) (o : Options) (context : Json) : Outcome :=
  match Mode.ofName? o.mode with
  | none => .refused (line ["Unknown mode: ", o.mode])
  | some mode =>
    let r := (e.reason mode o.text context).1
    .report w 0 o [] r.toJson (resultReport r)

/-- Answers the command `decide`. -/
def decision (e : Engine) (o : Options) (context : Json) : Outcome :=
  let r := (e.reason .decision o.text context).1
  .report w 0 o [] r.toJson (resultReport r)

/-- The names between commas, without empty ones. -/
def splitNames (t : Text) : List Text :=
  ((t.splitWhere (· == ','.toUInt8)).map Text.trim).filter fun name => !name.isEmpty

/-- Answers the command `across`. -/
def across (e : Engine) (o : Options) : Outcome :=
  let s := (e.across o.text (splitNames o.domains)).1
  .report w 0 o [] s.toJson (solutionReport s)

/-- Answers the command `transfer`. -/
def transfer (e : Engine) (o : Options) (knowledge : Json) : Outcome :=
  let t := (e.transfer o.source o.target knowledge).1
  let code := if t.success then 0 else 2
  if o.json then .ofJson w code [] [] t.toJson
  else if t.success then
    .ofJson w code (transferReport t ++ line [] ++ Text.ofString "Transferred: ") [] t.transferred
  else ⟨code, transferReport t, [], []⟩

/-- Answers the command `analogies`. -/
def analogies (e : Engine) (o : Options) (source : Json) : Outcome :=
  let s := (e.analogies source o.target).1
  .report w 0 o [] s.toJson (analogiesReport o.target s)

/-- Writes answers, up to one that cannot be written.  What is wrong with a line is warned of before
    its answer is written. -/
def writeAnswers (code : Nat) (written : Text) (warned : List Text) : List LineAnswer → Outcome
  | [] => ⟨code, written, [], warned⟩
  | a :: as =>
    let warned := warned ++ a.warnings w
    match (a.toJson w).print? with
    | some t => writeAnswers code (written ++ line [t]) warned as
    | none => .invalidJson w written warned (.unprintable (a.toJson w))

/-- Answers the command `batch`. -/
def batch (e : Engine) (input : Text) : Outcome :=
  let answers := (answerBatch e input).1
  writeAnswers w (batchCode answers) [] [] answers

/-- Answers the command `metrics`. -/
def metrics (e : Engine) (o : Options) (input : Text) : Outcome :=
  let (answers, e) := answerBatch e input
  .report w (batchCode answers) o (answers.flatMap (LineAnswer.warnings w)) e.metrics.toJson
    (metricsReport e.metrics)

/-- Answers the command `rules`. -/
def rules (e : Engine) (o : Options) : Outcome :=
  .report w 0 o [] (registryJson e.registry) (registryReport e.registry)

/-! ## Runs -/

/-- The configuration of a run. -/
def Options.configure (o : Options) (c : Config) : Config :=
  if o.verbose then { c with verbose := true } else c

/-- Goes on with a JSON value that is read from a text. -/
def withJson (t : Text) (next : Json → Outcome) : Outcome :=
  match Json.parse t with
  | .ok j => next j
  | .error f => .invalidJson w [] [] (.unread t f)

/-- Runs a command with a context. -/
def Options.runWith (o : Options) (e : Engine) (program input : Text) (context : Json) :
    Outcome :=
  if o.command == Text.ofString "reason" then
    if o.text.isEmpty then .usageOf program "reason --mode M TEXT" else reason w e o context
  else if o.command == Text.ofString "decide" then decision w e o context
  else if o.command == Text.ofString "across" then
    if o.text.isEmpty then .usageOf program "across TEXT [--domains a,b]" else across w e o
  else if o.command == Text.ofString "transfer" then
    if o.source.isEmpty || o.target.isEmpty || o.payload.isEmpty then
      .usageOf program "transfer --from D --to D JSON"
    else withJson w o.payload (transfer w e o)
  else if o.command == Text.ofString "analogies" then
    if o.target.isEmpty || o.payload.isEmpty then .usageOf program "analogies --to D JSON"
    else withJson w o.payload (analogies w e o)
  else if o.command == Text.ofString "batch" then batch w e input
  else if o.command == Text.ofString "metrics" then metrics w e o input
  else if o.command == Text.ofString "rules" then rules w e o
  else .refused (line ["Unknown command: ", o.command] ++ line [] ++ usage program)

/-- Runs a command. -/
def Options.run (o : Options) (c : Config) (program input : Text) : Outcome :=
  let e := Engine.seeded (o.configure c)
  if o.context.isEmpty then o.runWith w e program input (.object [])
  else withJson w o.context (o.runWith w e program input)

end

namespace Invocation

/-- The path of the configuration file that a run needs, empty for none. -/
def configPath : Invocation → Text
  | run o => o.config
  | _ => []

/-- The run reads the standard input. -/
def readsInput : Invocation → Bool
  | run o => o.command == Text.ofString "batch" || o.command == Text.ofString "metrics"
  | _ => false

/-- Does what the arguments ask for. -/
def perform (w : Json.Wording) (i : Invocation) (c : Config) (path input : Text) : Outcome :=
  let program := programName path
  match i with
  | run o => o.run w c program input
  | help => ⟨0, [], usage program, []⟩
  | version => ⟨0, line ["nyaya ", Reasoning.version], [], []⟩
  | unknownOption option => .refused (line ["Unknown option: ", option] ++ usage program)

end Invocation

end Reasoning.CommandLine
