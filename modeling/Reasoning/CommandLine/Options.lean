/-
  The arguments of a command line.

  Arguments are read from the left.  An option with a value takes the next argument, whatever
  it looks like; help, version and an unknown option end the reading at once.  The first
  argument that is no option is the command, the others are its text, except that the commands
  that take a JSON value take it first.
-/
import Reasoning.Text.Basic

namespace Reasoning.CommandLine

/-- What the arguments ask for. -/
structure Options where
  command : Text
  /-- The arguments that make up the text, with single spaces between them. -/
  text : Text
  /-- The JSON value of a transfer or of a search for analogies. -/
  payload : Text
  mode : Text
  context : Text
  /-- The path of the configuration file, empty for none. -/
  config : Text
  /-- The domains of a problem, with commas between them. -/
  domains : Text
  source : Text
  target : Text
  json : Bool
  verbose : Bool
  deriving DecidableEq

namespace Options

/-- The options without arguments, for a default path of the configuration file. -/
def default (config : Text) : Options :=
  ⟨[], [], [], "classical", [], config, [], [], [], false, false⟩

/-- The command takes a JSON value. -/
def takesPayload (o : Options) : Bool :=
  o.command == Text.ofString "transfer" || o.command == Text.ofString "analogies"

/-- Takes an argument that is no option. -/
def takeArgument (o : Options) (argument : Text) : Options :=
  if o.command.isEmpty then { o with command := argument }
  else if o.takesPayload && o.payload.isEmpty then { o with payload := argument }
  else if o.text.isEmpty then { o with text := argument }
  else { o with text := o.text ++ Text.ofString " " ++ argument }

/-- The options with the value of an option that has one; none for other options. -/
def withValue? (o : Options) (option value : Text) : Option Options :=
  if option == Text.ofString "--mode" then some { o with mode := value }
  else if option == Text.ofString "--context" then some { o with context := value }
  else if option == Text.ofString "--config" then some { o with config := value }
  else if option == Text.ofString "--domains" then some { o with domains := value }
  else if option == Text.ofString "--from" then some { o with source := value }
  else if option == Text.ofString "--to" then some { o with target := value }
  else none

end Options

/-- What the arguments come to. -/
inductive Invocation where
  | run (o : Options)
  | help
  | version
  | unknownOption (option : Text)
  deriving DecidableEq

/-- An argument that begins with a dash and goes on. -/
def looksLikeOption : Text → Bool
  | b :: _ :: _ => b == '-'.toUInt8
  | _ => false

/-- What an option without a value comes to. -/
def Invocation.ofFlag (o : Options) (option : Text) : Except Invocation Options :=
  if option == Text.ofString "--json" then .ok { o with json := true }
  else if option == Text.ofString "--verbose" then .ok { o with verbose := true }
  else if option == Text.ofString "-h" || option == Text.ofString "--help" then .error .help
  else if option == Text.ofString "-v" || option == Text.ofString "--version" then
    .error .version
  else .error (.unknownOption option)

/-- Reads an argument that no option takes as its value. -/
def Options.take (o : Options) (argument : Text) : Except Invocation Options :=
  if looksLikeOption argument then Invocation.ofFlag o argument else .ok (o.takeArgument argument)

/-- Reads arguments on top of some options. -/
def Options.read (o : Options) : List Text → Except Invocation Options
  | [] => .ok o
  | [a] => o.take a
  | a :: b :: rest =>
    match o.withValue? a b with
    | some o => o.read rest
    | none => match o.take a with
      | .ok o => o.read (b :: rest)
      | .error i => .error i

/-- What the arguments come to, for a default path of the configuration file. -/
def Invocation.ofArguments (config : Text) (arguments : List Text) : Invocation :=
  match (Options.default config).read arguments with
  | .error i => i
  | .ok o =>
    if o.command.isEmpty || o.command == Text.ofString "help" then .help
    else if o.command == Text.ofString "version" then .version
    else .run o

end Reasoning.CommandLine
