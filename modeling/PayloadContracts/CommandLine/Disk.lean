import PayloadContracts.CommandLine.Files

/-!
Access to the files of the system.
-/

namespace PayloadContracts.CommandLine

/-- Which kind of entry does not fit is told by the number of the error, which may come negated. -/
def FileError.ofError : IO.Error → FileError
  | .noFileOrDirectory .. => .notFound
  | .alreadyExists .. => .taken
  | .inappropriateType _ code _ => if code = 20 || 0 - code = 20 then .notFolder else .isFolder
  | e => .other (toString e)

def guarded {α : Type} (action : IO α) : IO (Except FileError α) := do
  try return .ok (← action)
  catch e => return .error (.ofError e)

def disk : Files IO where
  read path := do
    match ← guarded (IO.FS.readBinFile path) with
    | .error e => return .error e
    | .ok bytes => return (String.fromUTF8? bytes).elim (.error .notText) .ok
  write path text := guarded (IO.FS.writeFile path text)
  createFolder path := guarded (IO.FS.createDir path)
  find? path := do
    if path = "" then return none
    let full := (← IO.currentDir) / path
    match ← guarded full.metadata with
    | .ok data => return some ⟨path, data.type == .dir⟩
    | .error _ => return none
  list path := guarded do
    let full := (← IO.currentDir) / path
    (← full.readDir).toList.mapM fun entry => do
      return ⟨entry.fileName, ← entry.path.isDir⟩

end PayloadContracts.CommandLine
