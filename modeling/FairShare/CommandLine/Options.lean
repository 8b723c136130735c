/-!
# Command-line options

The arguments are looked at from left to right, and the first one that ends the reading decides: a
question for the version or for help, or a usage error. An option may be given once. Only at the end
is it asked whether there was a request. A lone `-` is never an option, and after `--` nothing is.
-/

namespace FairShare

/-- How events are written while a program runs. -/
inductive LogFormat
  | pretty
  | json
  | compact
deriving DecidableEq

namespace LogFormat

def name : LogFormat → String
  | pretty => "pretty"
  | json => "json"
  | compact => "compact"

def all : List LogFormat := [pretty, json, compact]

/-- The format of a name in any mixture of capital and small letters. No letter outside ASCII has
one of the letters of a name as its small form, so only ASCII letters are lowered. -/
def ofName? (s : String) : Option LogFormat :=
  all.find? fun f => f.name.toList == s.toList.map Char.toLower

/-- What is said of a text that names no format. -/
def unknown (s : String) : String := "unknown log format: " ++ s

end LogFormat

namespace CommandLine

structure Options where
  request : String
  config : Option String
  lenient : Bool
  reportExhausted : Bool
  logFormat : LogFormat
  receipt : Bool

/-- Why reading the arguments ends without options. -/
inductive Stop
  | version
  | help
  | usage (complaint : String)

/-- What the arguments so far have given. -/
structure Given where
  request : Option String
  config : Option String
  lenient : Bool
  reportExhausted : Bool
  logFormat : Option LogFormat
  receipt : Bool

inductive Flag
  | lenient
  | reportExhausted
  | receipt

inductive Setting
  | config
  | logFormat

/-- What an argument is, an attached value apart. -/
inductive Recognised
  | flag (f : Flag)
  | setting (s : Setting)
  | version
  | help

namespace Given

def nothing : Given := ⟨none, none, false, false, none, false⟩

def repeated (name : String) : Stop :=
  .usage ("the argument '" ++ name ++ "' cannot be used multiple times")

def addRequest (g : Given) (path : String) : Except Stop Given :=
  if path.isEmpty then .error (.usage "a value is required for '<REQUEST>' but none was supplied")
  else if g.request.isSome then .error (.usage ("unexpected argument '" ++ path ++ "' found"))
  else .ok { g with request := some path }

def addFlag (g : Given) : Flag → Except Stop Given
  | .lenient => if g.lenient then .error (repeated "--lenient") else .ok { g with lenient := true }
  | .reportExhausted =>
    if g.reportExhausted then .error (repeated "--report-exhausted")
    else .ok { g with reportExhausted := true }
  | .receipt => if g.receipt then .error (repeated "--receipt") else .ok { g with receipt := true }

def addSetting (g : Given) (value : String) : Setting → Except Stop Given
  | .config =>
    if g.config.isSome then .error (repeated "--config <CONFIG>")
    else if value.isEmpty then
      .error (.usage "a value is required for '--config <CONFIG>' but none was supplied")
    else .ok { g with config := some value }
  | .logFormat =>
    if g.logFormat.isSome then .error (repeated "--log-format <LOG_FORMAT>")
    else match LogFormat.ofName? value with
      | some f => .ok { g with logFormat := some f }
      | none => .error (.usage (LogFormat.unknown value))

/-- The options, `fromEnvironment` naming the configuration where no argument does. -/
def options (g : Given) (fromEnvironment : Option String) : Except Stop Options :=
  match g.request with
  | none => .error (.usage "the following required arguments were not provided: <REQUEST>")
  | some request =>
    let made (config : Option String) : Options :=
      ⟨request, config, g.lenient, g.reportExhausted, g.logFormat.getD .pretty, g.receipt⟩
    match g.config, fromEnvironment with
    | some path, _ => .ok (made (some path))
    | none, some "" =>
      .error (.usage "a value is required for '--config <CONFIG>' but none was supplied")
    | none, path => .ok (made path)

end Given

/-- The option of a long name. -/
def longOption? (name : String) : Option Recognised :=
  if name = "config" then some (.setting .config)
  else if name = "log-format" then some (.setting .logFormat)
  else if name = "lenient" then some (.flag .lenient)
  else if name = "report-exhausted" then some (.flag .reportExhausted)
  else if name = "receipt" then some (.flag .receipt)
  else if name = "version" then some .version
  else if name = "help" then some .help
  else none

def shortOption? (c : Char) : Option Recognised :=
  if c = 'c' then some (.setting .config)
  else if c = 'V' then some .version
  else if c = 'h' then some .help
  else none

inductive Argument
  | positional (text : String)
  | endOfOptions
  | option (o : Recognised) (attached : Option String)
  | unknown (text : String)

/-- The value written right after a short option, with or without an equals sign. -/
def attachedValue : List Char → Option String
  | [] => none
  | '=' :: value => some (String.ofList value)
  | value => some (String.ofList value)

def classify (text : String) : Argument :=
  match text.toList with
  | ['-', '-'] => .endOfOptions
  | '-' :: '-' :: long =>
    let name := String.ofList (long.takeWhile (· != '='))
    let attached := match long.dropWhile (· != '=') with
      | [] => none
      | _ :: value => some (String.ofList value)
    match longOption? name with
    | some o => .option o attached
    | none => .unknown text
  | '-' :: c :: rest =>
    match shortOption? c with
    | some (.setting s) => .option (.setting s) (attachedValue rest)
    | some o => .option o none
    | none => .unknown text
  | _ => .positional text

/-- Whether an argument can be the value of the option before it. -/
def isValue (text : String) : Bool :=
  match text.toList with
  | '-' :: _ :: _ => false
  | _ => true

def addAll (g : Given) : List String → Except Stop Given
  | [] => .ok g
  | path :: rest => do addAll (← g.addRequest path) rest

def read (g : Given) : List String → Except Stop Given
  | [] => .ok g
  | arg :: rest =>
    match classify arg with
    | .positional path => do read (← g.addRequest path) rest
    | .endOfOptions => addAll g rest
    | .unknown text => .error (.usage ("unexpected argument '" ++ text ++ "' found"))
    | .option .version none => .error .version
    | .option .help none => .error .help
    | .option (.flag f) none => do read (← g.addFlag f) rest
    | .option (.setting s) (some value) => do read (← g.addSetting value s) rest
    | .option (.setting s) none =>
      match rest with
      | [] => .error (.usage ("a value is required for '" ++ arg ++ "' but none was supplied"))
      | value :: rest' =>
        if isValue value then do read (← g.addSetting value s) rest'
        else .error (.usage ("a value is required for '" ++ arg ++ "' but none was supplied"))
    | .option _ (some value) =>
      .error (.usage ("unexpected value '" ++ value ++ "' for '" ++ arg ++ "'"))

def Options.ofArguments (args : List String) (fromEnvironment : Option String) :
    Except Stop Options := do
  let g ← read .nothing args
  g.options fromEnvironment

end CommandLine
end FairShare
