/-
  The program: reads its arguments, its configuration and its input, and writes what a run
  leaves.  JSON exceptions are told by their names alone.
-/
import Reasoning.CommandLine.Run

open Reasoning Reasoning.CommandLine

/-- The content of a file, nothing if it cannot be read. -/
def readIfPresent (path : Text) : IO (Option Text) := do
  match path.toString? with
  | none => return none
  | some path =>
    try
      return some (← IO.FS.readBinFile path).data.toList
    catch _ => return none

/-- Everything that is left of a stream. -/
partial def readAll (stream : IO.FS.Stream) (read : ByteArray) : IO ByteArray := do
  let bytes ← stream.read 65536
  if bytes.isEmpty then return read else readAll stream (read ++ bytes)

def main (arguments : List String) : IO UInt32 := do
  let usual := (← IO.getEnv "NYAYA_CONFIG").getD ""
  let path := Text.ofString (← IO.appPath).toString
  let invocation := Invocation.ofArguments usual (arguments.map Text.ofString)
  let file ← readIfPresent invocation.configPath
  match Config.load file with
  | .error f =>
    -- Nothing catches this.
    let message := Json.Exception.name (.unread (file.getD []) f)
    throw (IO.userError (message.toString?.getD ""))
  | .ok c =>
    let input ← if invocation.readsInput then readAll (← IO.getStdin) .empty else pure .empty
    let outcome := invocation.perform Json.Exception.name c path input.data.toList
    (← IO.getStdout).write ⟨outcome.output.toArray⟩
    let errors := outcome.warnings.flatMap (fun t => line [t]) ++ outcome.errors
    (← IO.getStderr).write ⟨errors.toArray⟩
    return outcome.code.toUInt32
