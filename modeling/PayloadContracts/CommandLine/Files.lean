import PayloadContracts.CommandLine.Path

/-!
What a run asks of the files it works on.
-/

namespace PayloadContracts.CommandLine

inductive FileError where
  | notFound
  | taken
  | notFolder
  | isFolder
  /-- A file that is no text. -/
  | notText
  | other (message : String)
  deriving DecidableEq, Repr

namespace FileError

def message : FileError → String
  | notFound => "No such file or directory (os error 2)"
  | taken => "File exists (os error 17)"
  | notFolder => "Not a directory (os error 20)"
  | isFolder => "Is a directory (os error 21)"
  | notText => "stream did not contain valid UTF-8"
  | other message => message

end FileError

/-- A file or folder, with the path to it. -/
structure Place where
  path : String
  isFolder : Bool
  deriving DecidableEq, Repr

/-- Access to files by their paths. -/
structure Files (m : Type → Type) where
  read (path : String) : m (Except FileError String)
  /-- Makes a file of this text, in place of the one there is. -/
  write (path text : String) : m (Except FileError Unit)
  createFolder (path : String) : m (Except FileError Unit)
  find? (path : String) : m (Option Place)
  /-- What lies in a folder, in any order; the paths are bare names. -/
  list (path : String) : m (Except FileError (List Place))

namespace Files

variable {m : Type → Type} [Monad m]

def isFolder (files : Files m) (path : String) : m Bool := do
  return ((← files.find? path).map Place.isFolder).getD false

/-- Makes a folder, unless it is there, after the folders that lead to it. -/
def createFolders (files : Files m) : List String → m (Except FileError Unit)
  | [] => return .ok ()
  | path :: above =>
    if path = "" then return .ok ()
    else do
      let settle (e : FileError) : m (Except FileError Unit) := do
        return if ← files.isFolder path then .ok () else .error e
      match ← files.createFolder path with
      | .ok _ => return .ok ()
      | .error .notFound =>
        match ← files.createFolders above with
        | .error e => return .error e
        | .ok _ =>
          match ← files.createFolder path with
          | .ok _ => return .ok ()
          | .error e => settle e
      | .error e => settle e

end Files

end PayloadContracts.CommandLine
