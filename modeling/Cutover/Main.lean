import Cutover.CommandLine

/-!
# The program

Reads the configuration file that the arguments name and does what the command comes to.
-/

open Cutover

/-- The content of a file, if it can be read. -/
def readContent (file : String) : IO (Option Bytes) := do
  try
    return some (← IO.FS.readBinFile file).toList
  catch _ => return none

def runCommand (c : CommandLine.Command) : IO UInt32 := do
  let content ← match c.file? with
    | some file => readContent file
    | none => pure none
  let outcome := c.outcome content
  match outcome with
  | .shown text => IO.print ((Bytes.toText? text).getD "")
  | .failed e => IO.eprintln ("Error: " ++ e.message)
  | .serving address _ => IO.eprintln ("Error: cannot listen on " ++ address)
  return outcome.status.toUInt32

def main (args : List String) : IO UInt32 := do
  match CommandLine.parse? args with
  | some c => runCommand c
  | none =>
    IO.eprintln "usage: print-config [--config FILE] | serve [--addr ADDRESS] [--config FILE]"
    return CommandLine.usageStatus.toUInt32
