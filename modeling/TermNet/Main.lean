import TermNet.CommandLine

/-!
# The program

Reads the arguments, the environment and the files of a command, and does what the
command's script says.
-/

open TermNet

/-- Perform the actions of a script up to the first one that fails. -/
def performScript : Script → IO (Option SuiteError)
  | [] => return none
  | action :: rest => do
    match action with
    | .fail error => return some error
    | .say line =>
      IO.println line
      performScript rest
    | .format path =>
      IO.eprintln ("rustfmt unavailable, keeping unformatted output: " ++ path)
      performScript rest
    | .makeFolders path =>
      try
        unless path.isEmpty do IO.FS.createDirAll path
      catch _ => return some (.io path)
      performScript rest
    | .write path contents =>
      try IO.FS.writeFile path contents
      catch _ => return some (.io path)
      performScript rest

/-- The files that can be read, with their texts. -/
def readFiles (paths : List String) : IO (List (String × String)) := do
  let mut found := []
  for path in paths do
    try
      found := (path, ← IO.FS.readFile path) :: found
    catch _ => pure ()
  return found

/-- The variables of the environment that the settings come from. -/
def readVariables : IO (List (String × String)) := do
  let mut found := []
  for name in ["MATCHGEN_OUT_DIR", "MATCHGEN_FUNCTION", "MATCHGEN_NO_TESTS", "MATCHGEN_RUSTFMT"] do
    if let some value ← IO.getEnv name then found := (name, value) :: found
  return found

/-- How an error is told. -/
def errorText (error : SuiteError) : String :=
  match error, error.message? with
  | _, some message => message
  | .io path, none => "I/O error on " ++ path
  | .notASuite (some path), none => "Invalid suite file " ++ path
  | _, none => "matchgen failed"

/-- The program: 0 if all went well, 1 if the command failed, 2 if it makes no sense. -/
def main (arguments : List String) : IO UInt32 := do
  match Invocation.ofArguments arguments with
  | .help text =>
    IO.print text
    return 0
  | .refuse =>
    IO.eprint mainHelp
    return 2
  | .run command =>
    let files ← readFiles command.inputs
    let environment ← readVariables
    let script := command.script (fun name => environment.lookup name)
      (fun path => files.lookup path)
    match ← performScript script with
    | none => return 0
    | some error =>
      IO.eprintln (errorText error)
      return 1
