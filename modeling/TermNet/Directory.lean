namespace TermNet

/-!
# Directories — files by their paths

* `Directory` — the files and folders below a place;
* `Route` — a path as a list of names between slashes;
* `walk` — the folder that a list of names leads to, name by name;
* `read?`, `makeFolders?`, `write?` — what can be done with paths.

Each name on the way must be that of a folder that is there, also if the next one leads
back out of it.  What lies above the place, or at the root of all paths, is taken to be a
folder.
-/

/-! ### Paths -/

/-- A path as it is written. -/
structure Route where
  /-- Whether it begins at the root of all paths. -/
  isAbsolute : Bool
  /-- The names between slashes. -/
  names : List String
  endsInSlash : Bool
deriving DecidableEq, Repr, Inhabited

namespace Route

/-- The name of the folder itself. -/
def here : String := "."

/-- The name that leads to the folder above. -/
def above : String := ".."

/-- The longest path that may be used, in bytes. -/
def longest : Nat := 4095

/-- The longest name on a path, in bytes. -/
def longestName : Nat := 255

/-- The path that a text is.  It is not too long, and has no NUL. -/
def ofText? (text : String) : Option Route :=
  let cs := text.toList
  if longest < text.utf8ByteSize || cs.contains '\x00' then none
  else some {
    isAbsolute := cs.head? = some '/'
    names := ((cs.splitOn '/').filter fun name => !name.isEmpty).map String.ofList
    endsInSlash := cs.getLast? = some '/' }

/-- The names of the folder that a path begins at. -/
def start (route : Route) : List String := if route.isAbsolute then ["/"] else []

/-- The names of the folder that holds what a path names, which is found without looking
    at any folder: the folder itself counts only in front. -/
def folderNames (route : Route) : List String :=
  match route.names with
  | [] => []
  | first :: rest =>
    let rest := rest.filter (· ≠ here)
    (if first = here && route.isAbsolute then rest else first :: rest).dropLast

/-- The last name of a path, if it is that of a file. -/
def fileName? (route : Route) : Option String :=
  match route.names.getLast? with
  | some name =>
    if route.endsInSlash || name = here || name = above || longestName < name.utf8ByteSize then none
    else some name
  | none => none

/-- The path of a name in a folder. -/
def join (folder name : String) : String :=
  if folder = "" || name.toList.head? = some '/' then name
  else if folder.toList.getLast? = some '/' then folder ++ name
  else folder ++ "/" ++ name

end Route

/-! ### Directories -/

/-- The files and folders below a place, by the names on their paths. -/
structure Directory where
  files : List (List String × String) := []
  folders : List (List String) := []
deriving DecidableEq, Repr, Inhabited

/-- Why a path cannot be used. -/
inductive Obstacle where
  /-- A folder on the way is not there. -/
  | missing
  /-- There is something of that name. -/
  | taken
  /-- A file is on the way, or a name is too long. -/
  | refused
deriving DecidableEq, Repr, Inhabited

namespace Directory

/-- The text of a file. -/
def find? (dir : Directory) (names : List String) : Option String := dir.files.lookup names

/-- Whether a place lies above, or at the root of all paths. -/
def isOutside (names : List String) : Bool :=
  names.all fun name => name = Route.above || name = "/"

/-- Whether there is a folder. -/
def isFolder (dir : Directory) (names : List String) : Bool :=
  isOutside names || dir.folders.contains names

/-- The folder above a folder. -/
def parent (names : List String) : List String :=
  if names = ["/"] then names
  else if isOutside names then names ++ [Route.above]
  else names.dropLast

/-- The folder that a name leads to from another. -/
def enter (dir : Directory) (place : List String) (name : String) :
    Except Obstacle (List String) :=
  if name = Route.here then .ok place
  else if name = Route.above then .ok (parent place)
  else if Route.longestName < name.utf8ByteSize then .error .refused
  else
    let next := place ++ [name]
    if dir.isFolder next then .ok next
    else if (dir.find? next).isSome then .error .refused
    else .error .missing

/-- The folder that a list of names leads to. -/
def walk (dir : Directory) (place : List String) : List String → Except Obstacle (List String)
  | [] => .ok place
  | name :: rest =>
    match dir.enter place name with
    | .ok next => dir.walk next rest
    | .error obstacle => .error obstacle

/-- Where the file of a path is or would be. -/
def target? (dir : Directory) (path : String) : Option (List String) :=
  match Route.ofText? path with
  | some route =>
    match route.fileName?, dir.walk route.start route.names.dropLast with
    | some name, .ok place => some (place ++ [name])
    | _, _ => none
  | none => none

/-- Read a file. -/
def read? (dir : Directory) (path : String) : Option String := (dir.target? path).bind dir.find?

/-- Replace or add a file. -/
def setFile (names : List String) (contents : String) :
    List (List String × String) → List (List String × String)
  | [] => [(names, contents)]
  | (other, old) :: rest =>
    if other = names then (other, contents) :: rest
    else (other, old) :: setFile names contents rest

/-- **Write a file;** its folder has to be there. -/
def write? (dir : Directory) (path contents : String) : Option Directory :=
  match dir.target? path with
  | some names =>
    if dir.isFolder names then none
    else some { dir with files := setFile names contents dir.files }
  | none => none

/-- Make one folder. -/
def makeFolder (dir : Directory) (place names : List String) : Except Obstacle Directory :=
  match dir.walk place names.dropLast, names.getLast? with
  | .error obstacle, _ => .error obstacle
  | .ok _, none => .error .taken
  | .ok place, some name =>
    if name = Route.here || name = Route.above then .error .taken
    else if Route.longestName < name.utf8ByteSize then .error .refused
    else
      let made := place ++ [name]
      if dir.isFolder made || (dir.find? made).isSome then .error .taken
      else .ok { dir with folders := dir.folders ++ [made] }

/-- Make a folder unless it is there. -/
def ensureFolder? (dir : Directory) (place names : List String) : Option Directory :=
  match dir.makeFolder place names with
  | .ok dir => some dir
  | .error _ =>
    match dir.walk place names with
    | .ok _ => some dir
    | .error _ => none

/-- Make a folder, and if the one that would hold it is missing, try again after that has
    been made as well. -/
def ensureWith? (dir : Directory) (place names : List String)
    (makeHolder? : Directory → Option Directory) : Option Directory :=
  match dir.makeFolder place names with
  | .error .missing => (makeHolder? dir).bind fun dir => dir.ensureFolder? place names
  | _ => dir.ensureFolder? place names

/-- Make a folder and those above it, given its names from the last to the first. -/
def ensureAll? (place : List String) : (backwards : List String) → Directory → Option Directory
  | [], dir => some dir
  | name :: rest, dir => dir.ensureWith? place (name :: rest).reverse (ensureAll? place rest)

/-- **Make a folder** and those above it; fails where there is a file. -/
def makeFolders? (dir : Directory) (path : String) : Option Directory :=
  if path = "" then some dir
  else match Route.ofText? path with
    | some route =>
      dir.ensureWith? route.start route.names (ensureAll? route.start route.folderNames.reverse)
    | none => none

/-- A file with the folders above it. -/
def withFile (dir : Directory) (path contents : String) : Directory :=
  let folder := match Route.ofText? path with
    | some route => ensureAll? route.start route.folderNames.reverse dir
    | none => none
  (folder.bind fun dir => dir.write? path contents).getD dir

/-- A directory with these files. -/
def ofFiles (files : List (String × String)) : Directory :=
  files.foldl (fun dir (path, contents) => dir.withFile path contents) {}

/-- The files below the place, with their paths. -/
def toList (dir : Directory) : List (String × String) :=
  dir.files.filterMap fun (names, contents) =>
    if names.head?.any fun first => first = Route.above || first = "/" then none
    else some ("/".intercalate names, contents)

end Directory

end TermNet
