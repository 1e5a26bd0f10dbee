import ProtocolProver.Check
import ProtocolProver.CommandLine.Arguments

/-!
# The command line

`CommandLine.interpret` says what a list of arguments asks for, and `CommandLine.runCheck` checks a
model whose file has been read.
-/

namespace ProtocolProver

namespace CommandLine

open Arguments (OptionSpec Spec Parsed Stop)

/-! ## Texts -/

def versionText : String := "dyprove 0.1.0\n"

def mainHelp : String :=
  "Symbolic security protocol prover

Usage: dyprove [OPTIONS] <COMMAND>

Commands:
  check  Evaluate the lemmas of a model
  serve  Serve the evaluation API over HTTP
  help   Print this message or the help of the given subcommand(s)

Options:
      --config <CONFIG>  JSON configuration file with flags, budget and thread count
  -h, --help             Print help
  -V, --version          Print version
"

def checkHelp : String :=
  "Evaluate the lemmas of a model

Usage: dyprove check [OPTIONS] <MODEL>

Arguments:
  <MODEL>  \n
Options:
      --config <CONFIG>        JSON configuration file with flags, budget and thread count
      --lemma <LEMMA>          Only evaluate this lemma
      --flag <FLAGS>           Activate a flag, in addition to those of the configuration
      --max-steps <MAX_STEPS>  \n      --timeout <TIMEOUT>      Seconds, zero for none
      --max-nodes <MAX_NODES>  \n      --json                   Print the report as JSON
  -h, --help                   Print help
"

def serveHelp : String :=
  "Serve the evaluation API over HTTP

Usage: dyprove serve [OPTIONS]

Options:
      --addr <ADDR>      [default: 127.0.0.1:3000]
      --config <CONFIG>  JSON configuration file with flags, budget and thread count
  -h, --help             Print help
"

def helpHelp : String :=
  "Print this message or the help of the given subcommand(s)

Usage: dyprove help [COMMAND]...

Arguments:
  [COMMAND]...  Print help for the subcommand(s)
"

/-! ## Commands -/

/-- What `check` is asked to do. -/
structure CheckOptions where
  /-- The file of the model. -/
  model : String
  /-- The file of the configuration. -/
  config : Option String
  only : Option String
  flags : List String
  maxSteps : Option Nat
  timeoutSecs : Option Nat
  maxNodes : Option Nat
  json : Bool
deriving DecidableEq, Repr

inductive Command where
  /-- Print a text and end well. -/
  | print (text : String)
  /-- The arguments are not understood. -/
  | usage
  | check (options : CheckOptions)
  | serve (config : Option String) (address : String)
deriving DecidableEq, Repr

def configOption : OptionSpec := { name := "config", accepts := fun v => !v.isEmpty }

def mainSpec : Spec where
  options := [configOption]
  subcommands := ["check", "serve", "help"]
  hasVersion := true

/-- An option for a number. -/
def natOption (name : String) : OptionSpec :=
  { name := name, accepts := fun v => (Arguments.nat64? v).isSome }

def checkSpec : Spec where
  options :=
    [configOption, { name := "lemma" }, { name := "flag", repeats := true }, natOption "max-steps",
      natOption "timeout", natOption "max-nodes", { name := "json", takesValue := false }]
  maxArguments := 1

def serveSpec : Spec where
  options := [configOption, { name := "addr" }]

/-- What happens when arguments are not parsed to the end. -/
def stopped (help : String) : Stop → Command
  | .help => .print help
  | .version => .print versionText
  | .usage => .usage

/-- The `check` command. The configuration may be given before or after its name. -/
def interpretCheck (config : Option String) (args : List String) : Command :=
  match Arguments.parse checkSpec args with
  | .error stop => stopped checkHelp stop
  | .ok p =>
    match p.arguments with
    | [model] => .check
        { model := model
          config := (p.get? "config").or config
          only := p.get? "lemma"
          flags := p.getAll "flag"
          maxSteps := (p.get? "max-steps").bind Arguments.nat64?
          timeoutSecs := (p.get? "timeout").bind Arguments.nat64?
          maxNodes := (p.get? "max-nodes").bind Arguments.nat64?
          json := p.has "json" }
    | _ => .usage

def interpretServe (config : Option String) (args : List String) : Command :=
  match Arguments.parse serveSpec args with
  | .error stop => stopped serveHelp stop
  | .ok p => .serve ((p.get? "config").or config) ((p.get? "addr").getD "127.0.0.1:3000")

def interpretHelp : List String → Command
  | [] => .print mainHelp
  | ["check"] => .print checkHelp
  | ["serve"] => .print serveHelp
  | ["help"] => .print helpHelp
  | _ => .usage

/-- What a list of arguments asks for. -/
def interpret (args : List String) : Command :=
  match Arguments.parse mainSpec args with
  | .error stop => stopped mainHelp stop
  | .ok p =>
    match p.subcommand with
    | some ("check", rest) => interpretCheck (p.get? "config") rest
    | some ("serve", rest) => interpretServe (p.get? "config") rest
    | some ("help", rest) => interpretHelp rest
    | _ => .usage

/-! ## Running -/

/-- What a command prints, and its exit code: 0 if all is well, 1 if a lemma failed, 2 if nothing
could be checked, 101 if the clock cannot show the end of a search. -/
structure Result where
  exit : Nat
  output : String := ""
deriving DecidableEq, Repr

/-- The configuration with what the options say in its place. -/
def CheckOptions.configure (o : CheckOptions) (config : Config) : Config :=
  { config with
    flags := o.flags.foldl SortedSet.insert config.flags
    limits :=
      { maxSteps := o.maxSteps.getD config.limits.maxSteps
        timeoutSecs := o.timeoutSecs.getD config.limits.timeoutSecs
        maxNodes := o.maxNodes.getD config.limits.maxNodes } }

/-- Checks the model in the text of a file. -/
def runCheck (o : CheckOptions) (config : Config) (text : String) : Result :=
  match Surface.Model.ofText text with
  | .error _ => ⟨2, ""⟩
  | .ok m =>
    match check m (o.configure config) o.only with
    | .error (.compile _) => ⟨2, ""⟩
    | .error .noDeadline => ⟨101, ""⟩
    | .ok report =>
      ⟨if report.hasFailures then 1 else 0,
        if o.json then report.toJson.pretty ++ "\n" else report.text⟩

/-- The configuration in a file, or the default one. -/
def loadConfig {m : Type → Type} [Monad m] (readFile : String → m (Option String)) :
    Option String → m (Option Config)
  | none => pure (some {})
  | some path => do return (← readFile path).bind fun text => (Config.ofText text).toOption

/-- Runs the command that the arguments ask for, with the given way to read files. -/
def run {m : Type → Type} [Monad m] (readFile : String → m (Option String)) (args : List String) :
    m Result := do
  match interpret args with
  | .print text => return ⟨0, text⟩
  | .usage => return ⟨2, ""⟩
  | .serve .. => return ⟨2, ""⟩
  | .check o =>
    let some config ← loadConfig readFile o.config | return ⟨2, ""⟩
    let some text ← readFile o.model | return ⟨2, ""⟩
    return runCheck o config text

end CommandLine

end ProtocolProver
