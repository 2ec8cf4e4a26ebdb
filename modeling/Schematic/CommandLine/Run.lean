import Schematic.CommandLine.Arguments
import Schematic.CommandLine.Demo
import Schematic.Payload.Json

/-!
What the program answers, as a function of the invocation and of what it finds around it. The answer
is that of a run without a terminal, so it is never coloured.
-/

namespace Schematic.CommandLine

structure Environment where
  file? : String → Option String
  defaultConfig? : Option String
  input? : Option String
  supply : Supply

inductive Failure
  | readConfig
  | parseConfig
  | readInput
  | unknownKind (name : String)
  | payload (reason : PayloadError)
  | store (reason : StoreError)
  deriving DecidableEq

namespace Failure

/-- What the program says about a failure, where it is not left to the reader of a file. -/
def message? : Failure → Option String
  | readConfig => none
  | parseConfig => none
  | readInput => none
  | unknownKind name => some ("unknown object type: " ++ name)
  | payload reason => reason.message?
  | store reason => some (reason.message ObjectId.text)

end Failure

structure Outcome where
  output : String := ""
  failure? : Option Failure := none
  deriving DecidableEq

namespace Outcome

def success (output : String) : Outcome := { output }

def failed (failure : Failure) : Outcome := { failure? := some failure }

def exitCode (o : Outcome) : Nat := if o.failure?.isSome then 1 else 0

end Outcome

def settings (env : Environment) (options : Options) : Except Failure Settings := do
  let s ← match options.config? <|> env.defaultConfig? with
    | none => pure {}
    | some path =>
        match env.file? path with
        | none => throw .readConfig
        | some text =>
            match Settings.ofText? text with
            | none => throw .parseConfig
            | some s => pure s
  return { s with
    format := options.format?.getD s.format
    color := s.color && !options.noColor }

def inputText (env : Environment) (path? : Option String) : Except Failure String :=
  match path?.elim env.input? env.file? with
  | some text => .ok text
  | none => .error .readInput

def requestedPayload (env : Environment) (kind : String) (input? : Option String) :
    Except Failure Payload := do
  match ObjectKind.ofName? kind with
  | none => throw (.unknownKind kind)
  | some kind =>
      let text ← inputText env input?
      (Payload.ofText kind text).mapError .payload

def validate (format : OutputFormat) (payload : Payload) : Outcome :=
  match Revision.acceptPayload payload with
  | .ok kept =>
      let text := kept.toJson.pretty ++ "\n"
      match format with
      | .json => .success text
      | .text => .success ("✓ valid " ++ kept.kind.name ++ "\n" ++ text)
  | .error e =>
      let message := e.message ObjectId.text
      let text := match format with
        | .json => (Json.object [("rejected", .text message)]).compact ++ "\n"
        | .text => "✗ rejected " ++ payload.kind.name ++ ": " ++ message ++ "\n"
      ⟨text, some (.store e)⟩

def perform (env : Environment) (s : Settings) : Action → Outcome
  | .validate kind input? =>
      match requestedPayload env kind input? with
      | .ok payload => validate s.format payload
      | .error failure => .failed failure
  | .demo fullIds =>
      let name := if fullIds then ObjectId.text else ObjectId.short
      match demo env.supply, s.format with
      | .ok report, .json => .success ((report.toJson name).pretty ++ "\n")
      | .ok report, .text => .success (report.lines name)
      | .error e, _ => .failed (.store e)
  | .settings =>
      match s.format with
      | .json => .success (s.toJson.pretty ++ "\n")
      | .text => .success s.toToml

def run (env : Environment) (invocation : Invocation) : Outcome :=
  match settings env invocation.options with
  | .ok s => perform env s invocation.action
  | .error failure => .failed failure

end Schematic.CommandLine
