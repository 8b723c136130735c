import FairShare.CommandLine.Options
import FairShare.Json.Printer
import FairShare.Json.Records
import FairShare.Outcome.Receipt
import FairShare.Request

/-!
# The command line

`respond` answers a list of arguments with an exit code and two texts. What it reads comes from an
`Environment`, so it can be run on the files of a machine and on files that are made up. The
configuration is read before the request, and nothing is printed unless the matching succeeds. A log
format is checked with the other options, but no log is written.
-/

namespace FairShare.CommandLine

/-- Why a file could not be read. -/
inductive FileFault
  | missing
  | isDirectory
  | other (description : String)

def FileFault.message : FileFault → String
  | missing => "No such file or directory (os error 2)"
  | isDirectory => "Is a directory (os error 21)"
  | other description => description

/-- Where the program runs: the variable that may name a configuration, and what can be read. -/
structure Environment (m : Type → Type) where
  configVariable : Option String
  file : String → m (Except FileFault ByteArray)
  input : m (Except FileFault ByteArray)

structure Response where
  exitCode : Nat
  stdout : String
  stderr : String

/-- What was being done when it failed, and the causes, the nearest first. -/
structure Failure where
  doing : String
  causes : List String

/-- A text whose lines after the first start with `margin`. -/
def indented (margin : String) (s : String) : String :=
  String.intercalate ("\n" ++ margin) (s.splitOn "\n")

namespace Failure

/-- The lines of the causes; they are numbered where there are several. -/
def causeLines (f : Failure) : List String :=
  match f.causes with
  | [cause] => ["    " ++ indented "    " cause]
  | causes => causes.zipIdx.map fun c =>
    let number := toString c.2
    String.ofList (List.replicate (5 - number.length) ' ') ++ number ++ ": " ++
      indented "       " c.1

def report (f : Failure) : String :=
  "Error: " ++ f.doing ++ (if f.causes.isEmpty then "" else "\n\nCaused by:") ++
    String.join (f.causeLines.map ("\n" ++ ·)) ++ "\n"

def response (f : Failure) : Response := ⟨1, "", f.report⟩

end Failure

/-- The text of a file. -/
def decodeText (doing : String) : Except FileFault ByteArray → Except Failure String
  | .error fault => .error ⟨doing, [fault.message]⟩
  | .ok bytes => match String.fromUTF8? bytes with
    | some s => .ok s
    | none => .error ⟨doing, ["stream did not contain valid UTF-8"]⟩

/-- The configuration in a file. -/
def readConfig (path : String) (file : Except FileFault ByteArray) : Except Failure Config := do
  let s ← decodeText ("failed to read config " ++ path) file
  (Json.readText Config.decode s).mapError fun e => ⟨"invalid config " ++ path, [e.message]⟩

/-- A configuration with the flags on top. -/
def Options.adjust (o : Options) (c : Config) : Config where
  references := if o.lenient then .lenient else c.references
  reportExhausted := o.reportExhausted || c.reportExhausted

def isStandardInput (path : String) : Bool := path == "-"

def requestCauses : RequestError → List String
  | .invalidVolume cause => [(RequestError.invalidVolume cause).message, cause.message]
  | .malformed cause => [(RequestError.malformed cause).message]

def readRequest (path : String) (file : Except FileFault ByteArray) : Except Failure Request := do
  let doing := if isStandardInput path then "failed to read request from stdin"
    else "failed to read request " ++ path
  let s ← decodeText doing file
  (Request.ofText s).mapError fun e => ⟨"invalid match request", requestCauses e⟩

/-- What is printed about an outcome. -/
def printed (receipt : Bool) (o : Outcome) : String :=
  o.toJson.pretty ++ "\n" ++ if receipt then o.receipt.toJson.pretty ++ "\n" else ""

/-- The answer to a request. -/
def answer (o : Options) (config : Config) (file : Except FileFault ByteArray) :
    Except Failure String := do
  let request ← readRequest o.request file
  let outcome ← (request.run config).mapError fun e => ⟨"matching failed", [e.message]⟩
  .ok (printed o.receipt outcome)

def versionText : String := "spread-matcher 0.1.0\n"

def usageText : String :=
  "Usage: spread-matcher [OPTIONS] <REQUEST>\n"

def helpText : String :=
  "Priority-tiered fair-share matcher\n\n" ++ usageText ++
    "\nArguments:\n  <REQUEST>  Request file (`-` reads stdin)\n" ++
    "\nOptions:\n" ++
    "  -c, --config <CONFIG>          Matcher configuration file (JSON)\n" ++
    "      --lenient                  Skip priority nodes naming unknown entities instead of " ++
    "failing\n" ++
    "      --report-exhausted         List fully consumed entities in the leftover groups\n" ++
    "      --log-format <LOG_FORMAT>  Log output format (pretty, json, compact)\n" ++
    "      --receipt                  Print the audit receipt after the result\n" ++
    "  -h, --help                     Print help\n" ++
    "  -V, --version                  Print version\n"

def Stop.response : Stop → Response
  | version => ⟨0, versionText, ""⟩
  | help => ⟨0, helpText, ""⟩
  | usage complaint => ⟨2, "", "error: " ++ complaint ++ "\n\n" ++ usageText⟩

variable {m : Type → Type} [Monad m]

def runOptions (env : Environment m) (o : Options) : m Response := do
  let config ← match o.config with
    | none => pure (.ok .standard)
    | some path => do pure (readConfig path (← env.file path))
  match config with
  | .error f => pure f.response
  | .ok config => do
    let file ← if isStandardInput o.request then env.input else env.file o.request
    match answer o (o.adjust config) file with
    | .error f => pure f.response
    | .ok s => pure ⟨0, s, ""⟩

/-- The answer to a list of arguments. -/
def respond (env : Environment m) (args : List String) : m Response :=
  match Options.ofArguments args env.configVariable with
  | .error stop => pure stop.response
  | .ok o => runOptions env o

end FairShare.CommandLine
