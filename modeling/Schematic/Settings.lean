import Schematic.Json.Printer
import Schematic.Toml.Parser

namespace Schematic

inductive OutputFormat
  | text
  | json
  deriving DecidableEq

namespace OutputFormat

def name : OutputFormat → String
  | text => "text"
  | json => "json"

def ofName? : String → Option OutputFormat
  | "text" => some text
  | "json" => some json
  | _ => none

end OutputFormat

structure Settings where
  logFilter : String := "warn"
  format : OutputFormat := .text
  color : Bool := true
  deriving DecidableEq

namespace Settings

open Toml (Value Members)

/-- A format is a string, or a table whose only member has its name and holds nothing. -/
def format? : Value → Option OutputFormat
  | .text s => OutputFormat.ofName? s
  | .table _ [(name, .table _ [])] => OutputFormat.ofName? name
  | .table _ [(name, .emptyArray)] => OutputFormat.ofName? name
  | _ => none

def set? (s : Settings) : String × Value → Option Settings
  | ("log_filter", .text filter) => some { s with logFilter := filter }
  | ("format", value) => (format? value).map fun format => { s with format }
  | ("color", .flag color) => some { s with color }
  | _ => none

def ofText? (text : String) : Option Settings := do
  let ms ← Toml.parse? text
  ms.foldlM set? {}

def toToml (s : Settings) : String :=
  "log_filter = " ++ Toml.Text.write s.logFilter ++ "\n" ++
    "format = " ++ Toml.Text.write s.format.name ++ "\n" ++
    "color = " ++ toString s.color ++ "\n"

def toJson (s : Settings) : Json :=
  .object [("log_filter", .text s.logFilter), ("format", .text s.format.name),
    ("color", .bool s.color)]

end Settings

end Schematic
