import PayloadContracts.CommandLine.Files

/-!
Files held in memory. A run on them is a function of the tree.
-/

namespace PayloadContracts.CommandLine

inductive FileEntry where
  | file (text : String)
  | folder
  deriving DecidableEq, Repr

/-- Files and folders under the names that lead to them from the root. -/
structure FileTree where
  entries : List (List String × FileEntry)
  /-- Where paths begin that do not begin at the root. -/
  here : List String
  deriving Repr

namespace FileTree

/-- An empty folder to work in. -/
def empty : FileTree := ⟨[(["work"], .folder)], ["work"]⟩

/-- The root is always there. -/
def entry? (t : FileTree) (names : List String) : Option FileEntry :=
  if names = [] then some .folder
  else (t.entries.find? fun entry => entry.1 = names).map Prod.snd

def put (t : FileTree) (names : List String) (entry : FileEntry) : FileTree :=
  { t with entries := (t.entries.filter fun old => old.1 ≠ names) ++ [(names, entry)] }

/-- One piece further from a place that has to be a folder. -/
def step (t : FileTree) (names : List String) (piece : String) : Except FileError (List String) :=
  match t.entry? names with
  | none => .error .notFound
  | some (.file _) => .error .notFolder
  | some .folder =>
    if Path.isIdle piece then .ok names
    else if piece = ".." then .ok names.dropLast
    else .ok (names ++ [piece])

def walk (t : FileTree) (path : String) (pieces : List String) : Except FileError (List String) :=
  pieces.foldlM t.step (if Path.isAbsolute path then [] else t.here)

/-- The names that a path leads to, which need not be there. -/
def resolve (t : FileTree) (path : String) : Except FileError (List String) :=
  if path = "" then .error .notFound else t.walk path (Path.pieces path)

def lookup (t : FileTree) (path : String) : Except FileError FileEntry := do
  match t.entry? (← t.resolve path) with
  | some entry => return entry
  | none => throw .notFound

def read (t : FileTree) (path : String) : Except FileError String := do
  match ← t.lookup path with
  | .file text => return text
  | .folder => throw .isFolder

def list (t : FileTree) (path : String) : Except FileError (List Place) := do
  let names ← t.resolve path
  match t.entry? names with
  | none => throw .notFound
  | some (.file _) => throw .notFolder
  | some .folder =>
    return t.entries.filterMap fun (other, entry) =>
      if other.dropLast = names then
        other.getLast?.map fun name => ⟨name, entry = .folder⟩
      else none

/-- Where something new can be put: the names it gets, and whether slashes come after its name. There
are none for a path that ends in one or two dots, or at the root. -/
def newPlace (t : FileTree) (path : String) : Except FileError (Option (List String) × Bool) :=
  let reversed := (Path.pieces path).reverse
  let bare := reversed.dropWhile (· = "")
  match bare with
  | [] => if path = "" then .error .notFound else .ok (none, true)
  | last :: rest => do
    let folder ← t.step (← t.walk path rest.reverse) ""
    return (if last = "." || last = ".." then none else some (folder ++ [last]), reversed ≠ bare)

def write (t : FileTree) (path text : String) : Except FileError FileTree := do
  match ← t.newPlace path with
  | (some names, false) =>
    if t.entry? names = some .folder then throw .isFolder else return t.put names (.file text)
  | _ => throw .isFolder

def createFolder (t : FileTree) (path : String) : Except FileError FileTree := do
  match ← t.newPlace path with
  | (some names, _) => if (t.entry? names).isSome then throw .taken else return t.put names .folder
  | (none, _) => throw .taken

/-- Applies a change that may fail. -/
def change (f : FileTree → Except FileError FileTree) : StateM FileTree (Except FileError Unit) :=
  fun t =>
    match f t with
    | .ok t => (.ok (), t)
    | .error e => (.error e, t)

/-- The tree that a run works on, as a state. -/
def access : Files (StateM FileTree) where
  read path := do return (← get).read path
  write path text := change (·.write path text)
  createFolder path := change (·.createFolder path)
  find? path := do
    return ((← get).lookup path).toOption.map fun entry => ⟨path, entry = .folder⟩
  list path := do return (← get).list path

/-- A new file in its folders. -/
def addFile (path text : String) : StateM FileTree Unit := do
  let _ ← access.createFolders (Path.folders path)
  let _ ← access.write path text

def ofFiles (files : List (String × String)) : FileTree :=
  files.foldl (fun t file => ((addFile file.1 file.2).run t).2) empty

end FileTree

end PayloadContracts.CommandLine
