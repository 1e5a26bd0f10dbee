/-!
# Command line arguments

`Arguments.parse` sorts the arguments of a command into options and other arguments. Options are
written `--name value` or `--name=value`; after `--` everything is an argument. A command with
subcommands stops at the name of one.
-/

namespace ProtocolProver

namespace Arguments

/-- An option of a command. -/
structure OptionSpec where
  name : String
  takesValue : Bool := true
  /-- Whether it may be given more than once. -/
  repeats : Bool := false
  accepts : String → Bool := fun _ => true

/-- What a command takes. -/
structure Spec where
  options : List OptionSpec
  /-- The most arguments besides options. None of them is empty. -/
  maxArguments : Nat := 0
  subcommands : List String := []
  /-- Whether the command can print a version. -/
  hasVersion : Bool := false

/-- Why a command is not run. -/
inductive Stop where
  | help
  | version
  | usage
deriving DecidableEq, Repr

/-- The options and arguments of a command, and its subcommand with what follows. -/
structure Parsed where
  options : List (String × String) := []
  arguments : List String := []
  subcommand : Option (String × List String) := none
deriving DecidableEq, Repr

namespace Parsed

/-- The value of an option. -/
def get? (p : Parsed) (name : String) : Option String := p.options.lookup name

/-- The values of an option that may be repeated. -/
def getAll (p : Parsed) (name : String) : List String :=
  p.options.filterMap fun (n, v) => if n == name then some v else none

def has (p : Parsed) (name : String) : Bool := (p.get? name).isSome

def addArgument (spec : Spec) (p : Parsed) (arg : String) : Except Stop Parsed :=
  if p.arguments.length < spec.maxArguments && !arg.isEmpty then
    .ok { p with arguments := p.arguments ++ [arg] }
  else .error .usage

/-- Adds an option with a value that is not yet checked. -/
def addOption (p : Parsed) (o : OptionSpec) (value : String) : Except Stop Parsed :=
  if (o.repeats || !p.has o.name) && o.accepts value then
    .ok { p with options := p.options ++ [(o.name, value)] }
  else .error .usage

end Parsed

/-- Whether a text is written like an option. -/
def looksLikeOption (arg : String) : Bool :=
  match arg.toList with
  | '-' :: _ :: _ => true
  | _ => false

/-- The name of a long option, and the value after an equals sign. -/
def splitLong (cs : List Char) : String × Option String :=
  let value := match cs.dropWhile (· ≠ '=') with
    | _ :: value => some (String.ofList value)
    | [] => none
  (String.ofList (cs.takeWhile (· ≠ '=')), value)

/-- How an argument is to be taken. -/
inductive Word where
  | stop (reason : Stop)
  /-- What follows are arguments. -/
  | separator
  | option (o : OptionSpec) (value : String)
  /-- An option whose value comes next. -/
  | optionBefore (o : OptionSpec)
  | argument
  | subcommand

/-- Takes an argument that starts with two dashes. -/
def classifyLong (spec : Spec) (cs : List Char) : Word :=
  let (name, value) := splitLong cs
  if name = "help" then .stop (if value.isNone then .help else .usage)
  else if name = "version" && spec.hasVersion then
    .stop (if value.isNone then .version else .usage)
  else
    match spec.options.find? fun o => o.name == name with
    | none => .stop .usage
    | some o =>
      match o.takesValue, value with
      | true, some value => .option o value
      | true, none => .optionBefore o
      | false, some _ => .stop .usage
      | false, none => .option o ""

def classify (spec : Spec) (arg : String) : Word :=
  match arg.toList with
  | ['-', '-'] => .separator
  | '-' :: '-' :: cs => classifyLong spec cs
  | '-' :: c :: _ =>
    if c = 'h' then .stop .help
    else if c = 'V' && spec.hasVersion then .stop .version
    else .stop .usage
  | _ =>
    if spec.subcommands.isEmpty then .argument
    else if spec.subcommands.contains arg then .subcommand
    else .stop .usage

/-- Sorts arguments, given an option that waits for its value. -/
def parseFrom (spec : Spec) : Parsed → Option OptionSpec → List String → Except Stop Parsed
  | p, none, [] => .ok p
  | _, some _, [] => .error .usage
  | p, some o, arg :: rest =>
    if looksLikeOption arg then .error .usage
    else (p.addOption o arg).bind fun p => parseFrom spec p none rest
  | p, none, arg :: rest =>
    match classify spec arg with
    | .stop reason => .error reason
    | .separator => rest.foldlM (Parsed.addArgument spec) p
    | .option o value => (p.addOption o value).bind fun p => parseFrom spec p none rest
    | .optionBefore o => parseFrom spec p (some o) rest
    | .argument => (p.addArgument spec arg).bind fun p => parseFrom spec p none rest
    | .subcommand => .ok { p with subcommand := some (arg, rest) }

def parse (spec : Spec) (args : List String) : Except Stop Parsed := parseFrom spec {} none args

/-- A number of at most 64 bits in decimal digits, with or without a plus sign. -/
def nat64? (text : String) : Option Nat :=
  let digits := match text.toList with
    | '+' :: cs => cs
    | cs => cs
  let n := digits.foldl (fun n c => n * 10 + (c.toNat - 48)) 0
  if !digits.isEmpty && digits.all Char.isDigit && n < Nat.pow 2 64 then some n else none

end Arguments

end ProtocolProver
