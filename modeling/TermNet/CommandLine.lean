import TermNet.Suite.Emission
import TermNet.Suite.File
import TermNet.Suite.Verification

namespace TermNet

/-!
# The command line

* `Command` — what the program is asked to do;
* `OptionSpec`, `CommandSpec`, `readArguments` — options, flags and paths among the
  arguments of a command;
* `Invocation.ofArguments` — what a command line asks for;
* `Command.script` — what a command does;
* `Invocation.perform` — a run of the program in a directory.
-/

/-- What the program is asked to do. -/
inductive Command where
  /-- Emit the matchers of suites. -/
  | emit (suites : List String) (builtin : Bool) (out function : Option String)
      (noTests format : Bool)
  /-- Check the cases of suites. -/
  | verify (suites : List String) (builtin : Bool)
  /-- List the matches of one subject. -/
  | listMatches (patterns : List String) (subject : String)
deriving DecidableEq, Repr, Inhabited

/-- What a command line asks for. -/
inductive Invocation where
  | run (command : Command)
  /-- Tell how the program is used. -/
  | help (text : String)
  /-- Refuse arguments that make no sense. -/
  | refuse
deriving DecidableEq, Repr, Inhabited

/-! ### Arguments -/

/-- An option that takes a value. -/
structure OptionSpec where
  long : String
  short : Option Char := none
  repeatable : Bool := false
  mayBeEmpty : Bool := true

/-- The arguments of a command. -/
structure CommandSpec where
  flags : List String := []
  options : List OptionSpec := []
  /-- Whether paths may be given. -/
  takesPaths : Bool := false

/-- The arguments that have been read. -/
structure Arguments where
  flags : List String := []
  /-- The values of options, in order. -/
  values : List (String × String) := []
  paths : List String := []
deriving DecidableEq, Repr, Inhabited

namespace Arguments

/-- The values of an option. -/
def valuesOf (arguments : Arguments) (option : String) : List String :=
  arguments.values.filterMap fun (name, value) => if name = option then some value else none

/-- Add a flag, which may be given once. -/
def addFlag? (arguments : Arguments) (name : String) : Option Arguments :=
  if arguments.flags.contains name then none
  else some { arguments with flags := arguments.flags ++ [name] }

/-- Add the value of an option. -/
def addValue? (arguments : Arguments) (option : OptionSpec) (value : String) : Option Arguments :=
  if (value = "" && !option.mayBeEmpty)
      || (!option.repeatable && !(arguments.valuesOf option.long).isEmpty) then none
  else some { arguments with values := arguments.values ++ [(option.long, value)] }

/-- Add a path. -/
def addPath? (spec : CommandSpec) (arguments : Arguments) (path : String) : Option Arguments :=
  if !spec.takesPaths || path = "" then none
  else some { arguments with paths := arguments.paths ++ [path] }

end Arguments

/-- What one argument is. -/
inductive ArgumentShape where
  /-- The end of options. -/
  | separator
  /-- A long name, with the value behind its equals sign. -/
  | long (name : String) (value : Option String)
  /-- A short name, with what stands behind it. -/
  | short (name : Char) (rest : List Char)
  | plain
deriving DecidableEq, Repr, Inhabited

/-- What one argument is.  A dash alone is a plain one. -/
def argumentShape (argument : String) : ArgumentShape :=
  match argument.toList with
  | ['-', '-'] => .separator
  | '-' :: '-' :: text =>
    match text.span (· ≠ '=') with
    | (name, _ :: value) => .long (String.ofList name) (some (String.ofList value))
    | (name, []) => .long (String.ofList name) none
  | '-' :: name :: rest => .short name rest
  | _ => .plain

/-- The value that stands behind a short name. -/
def attachedValue : List Char → Option String
  | [] => none
  | '=' :: value => some (String.ofList value)
  | value => some (String.ofList value)

/-- What comes of reading the arguments of a command. -/
inductive Reading where
  | done (arguments : Arguments)
  | helpWanted
  | refused
deriving DecidableEq, Repr, Inhabited

/-- The arguments after the end of options, all of them paths. -/
def readPaths (spec : CommandSpec) (arguments : Arguments) (paths : List String) : Reading :=
  match paths.foldlM (Arguments.addPath? spec) arguments with
  | some arguments => .done arguments
  | none => .refused

/-- **The arguments of a command,** from left to right.  The value of an option stands
    in the same argument or in the next one, which must not look like an option. -/
def readArguments (spec : CommandSpec) : List String → Arguments → Reading
  | [], arguments => .done arguments
  | argument :: rest, arguments =>
    let goOn (next : Option Arguments) : Reading :=
      match next with
      | some arguments => readArguments spec rest arguments
      | none => .refused
    let takeValue (option : OptionSpec) (attached : Option String) : Reading :=
      match attached, rest with
      | some value, _ => goOn (arguments.addValue? option value)
      | none, [] => .refused
      | none, value :: rest =>
        match argumentShape value, arguments.addValue? option value with
        | .plain, some arguments => readArguments spec rest arguments
        | _, _ => .refused
    match argumentShape argument with
    | .separator => readPaths spec arguments rest
    | .plain => goOn (arguments.addPath? spec argument)
    | .long name value =>
      match spec.options.find? (·.long = name) with
      | some option => takeValue option value
      | none =>
        if value.isSome then .refused
        else if name = "help" then .helpWanted
        else if spec.flags.contains name then goOn (arguments.addFlag? name)
        else .refused
    | .short name attached =>
      match spec.options.find? (·.short = some name) with
      | some option => takeValue option (attachedValue attached)
      | none => if name = 'h' then .helpWanted else .refused

/-! ### Commands -/

/-- The arguments of `emit`. -/
def emitSpec : CommandSpec where
  flags := ["builtin", "no-tests", "rustfmt"]
  options := [{ long := "out", mayBeEmpty := false }, { long := "function" }]
  takesPaths := true

/-- The arguments of `verify`. -/
def verifySpec : CommandSpec where
  flags := ["builtin"]
  takesPaths := true

/-- The arguments of `match`. -/
def matchSpec : CommandSpec where
  options := [{ long := "pattern", short := some 'p', repeatable := true },
    { long := "subject", short := some 's' }]

/-- How the program is used. -/
def mainHelp : String :=
  "Compile pattern suites into Rust matchers\n\n"
    ++ "Usage: matchgen <COMMAND>\n\n"
    ++ "Commands:\n"
    ++ "  emit    Generate one matcher module per suite plus a `mod.rs`\n"
    ++ "  verify  Check suite cases against the interpreter\n"
    ++ "  match   Print every match of one subject\n"
    ++ "  help    Print this message or the help of the given subcommand(s)\n\n"
    ++ "Options:\n"
    ++ "  -h, --help     Print help\n"
    ++ "  -V, --version  Print version\n"

/-- How `emit` is used. -/
def emitHelp : String :=
  "Generate one matcher module per suite plus a `mod.rs`\n\n"
    ++ "Usage: matchgen emit [OPTIONS] [SUITES]...\n\n"
    ++ "Arguments:\n"
    ++ "  [SUITES]...  Suite files (JSON)\n\n"
    ++ "Options:\n"
    ++ "      --builtin              Also emit the builtin reference suites\n"
    ++ "      --out <OUT>            Output directory [default: $MATCHGEN_OUT_DIR or `generated`]\n"
    ++ "      --function <FUNCTION>  Entry point name [default: $MATCHGEN_FUNCTION or `match_root`]\n"
    ++ "      --no-tests             Do not append test modules\n"
    ++ "      --rustfmt              Format the output with rustfmt\n"
    ++ "  -h, --help                 Print help\n"

/-- How `verify` is used. -/
def verifyHelp : String :=
  "Check suite cases against the interpreter\n\n"
    ++ "Usage: matchgen verify [OPTIONS] [SUITES]...\n\n"
    ++ "Arguments:\n"
    ++ "  [SUITES]...  \n\n"
    ++ "Options:\n"
    ++ "      --builtin  \n"
    ++ "  -h, --help     Print help\n"

/-- How `match` is used. -/
def matchHelp : String :=
  "Print every match of one subject\n\n"
    ++ "Usage: matchgen match --pattern <PATTERNS> --subject <SUBJECT>\n\n"
    ++ "Options:\n"
    ++ "  -p, --pattern <PATTERNS>  Pattern in the pattern syntax; repeat for several patterns\n"
    ++ "  -s, --subject <SUBJECT>   \n"
    ++ "  -h, --help                Print help\n"

/-- How `help` is used. -/
def helpHelp : String :=
  "Print this message or the help of the given subcommand(s)\n\n"
    ++ "Usage: matchgen help [COMMAND]...\n\n"
    ++ "Arguments:\n"
    ++ "  [COMMAND]...  Print help for the subcommand(s)\n"

/-- The name and the version of the program. -/
def versionText : String := "matchgen 0.1.0\n"

/-- The help that is asked for by the names of commands. -/
def helpOn : List String → Invocation
  | [] => .help mainHelp
  | ["emit"] => .help emitHelp
  | ["verify"] => .help verifyHelp
  | ["match"] => .help matchHelp
  | ["help"] => .help helpHelp
  | _ => .refuse

/-- The command that arguments make up, if they are read and nothing is missing. -/
def commandOf (spec : CommandSpec) (help : String) (command? : Arguments → Option Command)
    (rest : List String) : Invocation :=
  match readArguments spec rest {} with
  | .helpWanted => .help help
  | .refused => .refuse
  | .done arguments =>
    match command? arguments with
    | some command => .run command
    | none => .refuse

/-- The command `emit`. -/
def emitCommand (arguments : Arguments) : Command :=
  .emit arguments.paths (arguments.flags.contains "builtin") (arguments.valuesOf "out").head?
    (arguments.valuesOf "function").head? (arguments.flags.contains "no-tests")
    (arguments.flags.contains "rustfmt")

/-- The command `verify`. -/
def verifyCommand (arguments : Arguments) : Command :=
  .verify arguments.paths (arguments.flags.contains "builtin")

/-- The command `match`, which needs a pattern and a subject. -/
def matchCommand? (arguments : Arguments) : Option Command :=
  match arguments.valuesOf "pattern", arguments.valuesOf "subject" with
  | first :: more, subject :: _ => some (.listMatches (first :: more) subject)
  | _, _ => none

/-- **What a command line asks for.** -/
def Invocation.ofArguments : List String → Invocation
  | [] => .refuse
  | first :: rest =>
    match argumentShape first, first with
    | .plain, "emit" => commandOf emitSpec emitHelp (fun a => some (emitCommand a)) rest
    | .plain, "verify" => commandOf verifySpec verifyHelp (fun a => some (verifyCommand a)) rest
    | .plain, "match" => commandOf matchSpec matchHelp matchCommand? rest
    | .plain, "help" => helpOn rest
    | .long "help" none, _ => .help mainHelp
    | .long "version" none, _ => .help versionText
    | .short 'h' _, _ => .help mainHelp
    | .short 'V' _, _ => .help versionText
    | _, _ => .refuse

/-! ### What commands do -/

namespace Command

/-- The files that a command reads. -/
def inputs : Command → List String
  | emit suites .. | verify suites _ => suites
  | listMatches .. => []

/-- Emitting suites and telling the paths of the files. -/
def emitScript (suites : List Suite) (settings : Settings) : Script :=
  emitAll suites settings ++ (emittedPaths suites settings).map .say

/-- Checking a suite. -/
def verifyScript (suite : Suite) : Script :=
  match suite.verify.bind Report.toResult with
  | .ok report => [.say (report.suite ++ ": " ++ toString report.cases ++ " cases passed")]
  | .error error => [.fail error]

/-- What messages call the patterns and the subject of a command line. -/
def commandLineName : String := "command line"

/-- The matches of a subject, a line for each. -/
def matchLines (patterns : List String) (subject : String) : Except SuiteError (List String) := do
  let compiled ← patterns.mapM fun text =>
    match Pattern.parse text with
    | .ok pattern => .ok pattern
    | .error cause => .error (SuiteError.pattern commandLineName text cause)
  let t ← Suite.subject commandLineName subject
  return ((Net.ofPatterns compiled).matches t).map fun (index, subst) =>
    toString index ++ ": " ++ patterns[index]?.getD "" ++ " " ++ subst.text

/-- **What a command does,** given the environment and the files that can be read. -/
def script (variableOf read? : String → Option String) : Command → Script
  | emit paths builtin out function noTests format =>
    let settings := Settings.ofEnvironment variableOf
    let settings : Settings := {
      outDir := out.getD settings.outDir
      functionName := function.getD settings.functionName
      emitTests := settings.emitTests && !noTests
      formatOutput := settings.formatOutput || format }
    match Suite.loadAll read? paths builtin with
    | .ok suites => emitScript suites settings
    | .error error => [.fail error]
  | verify paths builtin =>
    match Suite.loadAll read? paths builtin with
    | .ok suites => suites.flatMap verifyScript
    | .error error => [.fail error]
  | listMatches patterns subject =>
    match matchLines patterns subject with
    | .ok lines => lines.map .say
    | .error error => [.fail error]

end Command

/-! ### Runs -/

/-- What a run of the program leaves behind. -/
structure Run where
  /-- 0 if all went well, 1 if a command failed, 2 if the command line makes no sense. -/
  exitCode : Nat
  /-- What was told. -/
  output : String
  directory : Directory
deriving Repr, Inhabited

/-- **A run of the program** in a directory, given the environment. -/
def Invocation.perform (variableOf : String → Option String) (dir : Directory) : Invocation → Run
  | .refuse => ⟨2, "", dir⟩
  | .help text => ⟨0, text, dir⟩
  | .run command =>
    let outcome := (command.script variableOf dir.read?).run dir
    ⟨if outcome.error.isSome then 1 else 0, String.join (outcome.lines.map (· ++ "\n")),
      outcome.directory⟩

end TermNet
