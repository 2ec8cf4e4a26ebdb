import Schematic.CommandLine.Run

namespace Schematic.CommandLine

def defaultConfig : String := "xorn.toml"

def usageText : String :=
  String.join <| List.map (· ++ "\n") [
    "xorn: revisioned storage for schematic objects",
    "",
    "Usage: xorn [OPTIONS] <COMMAND>",
    "",
    "Commands:",
    "  validate <TYPE> [FILE]  Validate and normalize an object payload given as JSON",
    "  demo [--full-ids]       Run a scripted editing session and show each revision",
    "  config                  Show the effective configuration",
    "",
    "Options:",
    "  -v, --verbose",
    "      --format <text|json>  Output format; overrides the config file",
    "      --config <FILE>       Config file (defaults to ./xorn.toml when present)",
    "      --no-color            Disable colored output",
    "  -h, --help",
    "  -V, --version"]

def Failure.report : Failure → String
  | readConfig => "the settings file cannot be read"
  | parseConfig => "the settings file cannot be understood"
  | readInput => "the input cannot be read"
  | failure => failure.message?.getD "a field of the payload has a value of the wrong type"

def Action.file? : Action → Option String
  | validate _ path? => path?
  | _ => none

def Action.readsInput : Action → Bool
  | validate kind none => (ObjectKind.ofName? kind).isSome
  | _ => false

def attempt {α : Type} (act : IO α) : IO (Option α) := do
  match ← act.toBaseIO with
  | .ok a => return some a
  | .error _ => return none

def readAll (paths : List String) : IO (List (String × String)) :=
  paths.filterMapM fun (path : String) => do
    let text? ← attempt (IO.FS.readFile path)
    return text?.map fun text => (path, text)

def randomSupply : IO Supply := do
  let bytes ← IO.getRandomBytes 15
  return { nextId := bytes.foldl (fun n byte => 256 * n + byte.toNat) 0 }

def look (invocation : Invocation) : IO Environment := do
  let files ← readAll
    ((invocation.options.config?.getD defaultConfig) :: invocation.action.file?.toList)
  let input? ←
    if invocation.action.readsInput then attempt do (← IO.getStdin).readToEnd else pure none
  return {
    file? := fun path => files.lookup path
    defaultConfig? := (files.lookup defaultConfig).map fun _ => defaultConfig
    input?
    supply := ← randomSupply }

end Schematic.CommandLine

open Schematic.CommandLine

def main (arguments : List String) : IO UInt32 := do
  match parse arguments with
  | .error usage =>
      if usage = .misuse then IO.eprint usageText else IO.print usageText
      return usage.exitCode.toUInt32
  | .ok invocation =>
      let outcome := run (← look invocation) invocation
      IO.print outcome.output
      match outcome.failure? with
      | some failure => IO.eprintln ("Error: " ++ failure.report)
      | none => pure ()
      return outcome.exitCode.toUInt32
