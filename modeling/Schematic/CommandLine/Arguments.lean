import Schematic.Settings

/-!
Options may stand before the command and after it; where both places give a value, the later one
counts. A value before the command, in an argument of its own, is looked at only after the command's
own arguments.
-/

namespace Schematic.CommandLine

inductive Action
  | validate (kind : String) (input? : Option String)
  | demo (fullIds : Bool)
  | settings
  deriving DecidableEq

structure Options where
  verbose : Bool := false
  format? : Option OutputFormat := none
  config? : Option String := none
  noColor : Bool := false
  deriving DecidableEq

structure Invocation where
  action : Action
  options : Options
  deriving DecidableEq

inductive Usage
  | shown
  | misuse
  deriving DecidableEq

namespace Usage

def exitCode : Usage → Nat
  | shown => 0
  | misuse => 2

end Usage

inductive Valued
  | format
  | config
  deriving DecidableEq

inductive Argument
  | separator
  | long (name : String) (value? : Option String)
  | short (letters : List Char)
  | word (text : String)
  deriving DecidableEq

namespace Argument

def ofText (text : String) : Argument :=
  match text.toList with
  | ['-', '-'] => separator
  | '-' :: '-' :: cs =>
      let name := String.ofList (cs.takeWhile (· != '='))
      match cs.dropWhile (· != '=') with
      | [] => long name none
      | _ :: value => long name (some (String.ofList value))
  | ['-'] => word text
  | '-' :: letters => short letters
  | _ => word text

end Argument

namespace Options

def set (o : Options) (option : Valued) (value : String) : Except Usage Options :=
  match option with
  | .format =>
      match o.format?, OutputFormat.ofName? value with
      | none, some format => .ok { o with format? := some format }
      | _, _ => .error .misuse
  | .config =>
      if o.config?.isNone && !value.isEmpty then .ok { o with config? := some value }
      else .error .misuse

def setVerbose (o : Options) : Except Usage Options :=
  if o.verbose then .error .misuse else .ok { o with verbose := true }

def setNoColor (o : Options) : Except Usage Options :=
  if o.noColor then .error .misuse else .ok { o with noColor := true }

/-- `version` says whether one may ask for the version. -/
def setLetters (version : Bool) (o : Options) : List Char → Except Usage Options
  | [] => .ok o
  | 'v' :: letters => do
      let o ← o.setVerbose
      setLetters version o letters
  | 'h' :: _ => .error .shown
  | 'V' :: _ => .error (if version then .shown else .misuse)
  | _ :: _ => .error .misuse

def merge (before after : Options) : Options where
  verbose := before.verbose || after.verbose
  format? := after.format? <|> before.format?
  config? := after.config? <|> before.config?
  noColor := before.noColor || after.noColor

end Options

def valued? : String → Option Valued
  | "format" => some .format
  | "config" => some .config
  | _ => none

def value? (text : String) : Option String :=
  match Argument.ofText text with
  | .word text => some text
  | _ => none

/-! ### After the command -/

inductive CommandName
  | validate
  | demo
  | settings
  | help
  deriving DecidableEq

namespace CommandName

def ofText? : String → Option CommandName
  | "validate" => some validate
  | "demo" => some demo
  | "config" => some settings
  | "help" => some help
  | _ => none

end CommandName

structure Told where
  options : Options := {}
  fullIds : Bool := false
  words : List String := []

namespace Told

def addWord (told : Told) (name : CommandName) (text : String) : Except Usage Told :=
  match name, told.words with
  | .validate, [] => .ok { told with words := [text] }
  | .validate, [kind] =>
      if text.isEmpty then .error .misuse else .ok { told with words := [kind, text] }
  | _, _ => .error .misuse

def setFlag (told : Told) (name : CommandName) (flag : String) : Except Usage Told :=
  match flag with
  | "help" => .error .shown
  | "verbose" => told.options.setVerbose.map fun options => { told with options }
  | "no-color" => told.options.setNoColor.map fun options => { told with options }
  | "full-ids" =>
      if name = .demo ∧ !told.fullIds then .ok { told with fullIds := true } else .error .misuse
  | _ => .error .misuse

def takeAll (told : Told) (name : CommandName) : List String → Except Usage Told
  | [] => .ok told
  | text :: texts =>
      match Argument.ofText text with
      | .separator => texts.foldlM (addWord · name ·) told
      | .word text => do
          let told ← told.addWord name text
          takeAll told name texts
      | .short letters => do
          let options ← told.options.setLetters false letters
          takeAll { told with options } name texts
      | .long option (some value) =>
          match valued? option with
          | some option => do
              let options ← told.options.set option value
              takeAll { told with options } name texts
          | none => .error .misuse
      | .long option none =>
          match valued? option, texts with
          | none, texts => do
              let told ← told.setFlag name option
              takeAll told name texts
          | some _, [] => .error .misuse
          | some option, text :: texts =>
              match value? text with
              | some value => do
                  let options ← told.options.set option value
                  takeAll { told with options } name texts
              | none => .error .misuse

def action (told : Told) (name : CommandName) : Except Usage Action :=
  match name, told.words with
  | .validate, kind :: words => .ok (.validate kind words.head?)
  | .validate, [] => .error .misuse
  | .demo, _ => .ok (.demo told.fullIds)
  | .settings, _ => .ok .settings
  | .help, _ => .error .misuse

end Told

/-! ### Before the command -/

def help : List String → Usage
  | [] => .shown
  | [name] => if (CommandName.ofText? name).isSome then .shown else .misuse
  | _ => .misuse

/-- Give the value that waits to be looked at, if there is one, to its option. -/
def settle (o : Options) : Option (Valued × String) → Except Usage Options
  | some (option, value) => o.set option value
  | none => .ok o

def command (o : Options) (waiting : Option (Valued × String)) (name : CommandName)
    (texts : List String) : Except Usage Invocation :=
  if name = .help then .error (help texts)
  else do
    let told ← ({} : Told).takeAll name texts
    let action ← told.action name
    let o ← settle o waiting
    return ⟨action, o.merge told.options⟩

def flag (o : Options) : String → Except Usage Options
  | "help" => .error .shown
  | "version" => .error .shown
  | "verbose" => o.setVerbose
  | "no-color" => o.setNoColor
  | _ => .error .misuse

def start (o : Options) (waiting : Option (Valued × String)) :
    List String → Except Usage Invocation
  | [] => .error .misuse
  | text :: texts =>
      match CommandName.ofText? text with
      | some name => command o waiting name texts
      | none => do
          let o ← settle o waiting
          match Argument.ofText text with
          | .separator => .error .misuse
          | .word _ => .error .misuse
          | .short letters =>
              let o ← o.setLetters true letters
              start o none texts
          | .long option (some value) =>
              match valued? option with
              | some option =>
                  let o ← o.set option value
                  start o none texts
              | none => .error .misuse
          | .long option none =>
              match valued? option, texts with
              | none, texts =>
                  let o ← flag o option
                  start o none texts
              | some _, [] => .error .misuse
              | some option, text :: texts =>
                  match value? text with
                  | some value => start o (some (option, value)) texts
                  | none => .error .misuse

def parse (texts : List String) : Except Usage Invocation := start {} none texts

end Schematic.CommandLine
