import TermNet.Directory
import TermNet.Suite.Error

namespace TermNet

/-!
# Scripts — what a program does with files

What is written and told is worked out as a list of actions, which end at the first
one that fails.

* `Action` — what is done;
* `Script.run` — doing it in a directory.
-/

/-- What a program does. -/
inductive Action where
  | makeFolders (path : String)
  | write (path contents : String)
  /-- Have a written file formatted, if there is a formatter. -/
  | format (path : String)
  | say (line : String)
  | fail (error : SuiteError)
deriving Repr, Inhabited

/-- Actions one after the other. -/
abbrev Script := List Action

/-- What comes of a script. -/
structure Outcome where
  directory : Directory
  /-- The lines that were told. -/
  lines : List String := []
  /-- Why the script ended early. -/
  error : Option SuiteError := none
deriving Repr, Inhabited

/-- **Running a script** in a directory that has no formatter. -/
def Script.run : Script → Directory → Outcome
  | [], dir => ⟨dir, [], none⟩
  | .makeFolders path :: rest, dir =>
    match dir.makeFolders? path with
    | some dir => Script.run rest dir
    | none => ⟨dir, [], some (.io path)⟩
  | .write path contents :: rest, dir =>
    match dir.write? path contents with
    | some dir => Script.run rest dir
    | none => ⟨dir, [], some (.io path)⟩
  | .format _ :: rest, dir => Script.run rest dir
  | .say line :: rest, dir =>
    let outcome := Script.run rest dir
    { outcome with lines := line :: outcome.lines }
  | .fail error :: _, dir => ⟨dir, [], some error⟩

end TermNet
