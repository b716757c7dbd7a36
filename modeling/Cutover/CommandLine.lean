import Cutover.Config
import Cutover.CommandLine.Address

/-!
# The command line

`print-config` shows the configuration in force, and `serve` starts the control surface. Both take
the name of a configuration file. Main definitions: `CommandLine.parse?`, and `Command.outcome`,
which says from the content of that file what a command comes to.
-/

namespace Cutover.CommandLine

inductive Command where
  | printConfig (file : Option String)
  | serve (address : String) (file : Option String)
  deriving DecidableEq, Repr

/-- Where the control surface listens when nothing else is said. -/
def defaultAddress : String := "127.0.0.1:8080"

/-- Whether an argument can be the value of an option that stands before it. -/
def isValue (arg : String) : Bool := arg == "-" || !arg.startsWith "-"

/-- The options of a command with their values, each at most once. Some names are known; a lone
double hyphen may stand at the end. -/
def options (known : List String) : List String → Option (List (String × String))
  | [] => some []
  | arg :: rest =>
    let add (name value : String) (more : Option (List (String × String))) :
        Option (List (String × String)) :=
      more.bind fun given =>
        if value.isEmpty || (given.lookup name).isSome then none else some ((name, value) :: given)
    if arg = "--" then if rest.isEmpty then some [] else none
    else
      match known.find? (fun name => arg.startsWith (name ++ "=")) with
      | some name => add name (arg.drop (name.length + 1)).toString (options known rest)
      | none =>
        if known.contains arg then
          match rest with
          | value :: rest => if isValue value then add arg value (options known rest) else none
          | [] => none
        else none

def parse? : List String → Option Command
  | "print-config" :: rest =>
    (options ["--config"] rest).map fun given => .printConfig (given.lookup "--config")
  | "serve" :: rest =>
    (options ["--addr", "--config"] rest).bind fun given =>
      let address := (given.lookup "--addr").getD defaultAddress
      if Address.isValid address then some (.serve address (given.lookup "--config")) else none
  | _ => none

namespace Command

def file? : Command → Option String
  | printConfig file | serve _ file => file

/-- What a command comes to. -/
inductive Outcome where
  | shown (text : Bytes)
  | failed (e : Error)
  /-- The control surface is to be opened. -/
  | serving (address : String) (config : Config)

/-- The configuration of a command, from the content of its file. -/
def config (c : Command) (content : Option Bytes) : Except Error Config :=
  match c.file? with
  | none => .ok {}
  | some file =>
    match Config.load content with
    | .ok config => .ok config
    | .error e => .error (e.toError file)

/-- What a command comes to, from the content of its file. -/
def outcome (c : Command) (content : Option Bytes) : Outcome :=
  match c.config content with
  | .error e => .failed e
  | .ok config =>
    match c with
    | printConfig _ => .shown (config.encodeLines ++ [10])
    | serve address _ => .serving address config

end Command

/-- The status with which the program ends when its arguments name no command. -/
def usageStatus : Nat := 2

/-- The status with which the program ends. The control surface ends when it cannot be opened. -/
def Command.Outcome.status : Outcome → Nat
  | shown _ => 0
  | failed _ | serving .. => 1

def Command.Outcome.text : Outcome → Bytes
  | shown text => text
  | failed _ | serving .. => []

end Cutover.CommandLine
