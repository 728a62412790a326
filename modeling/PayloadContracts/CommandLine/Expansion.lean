import PayloadContracts.CommandLine.Files
import PayloadContracts.CommandLine.Glob

/-!
The files that a pattern for paths stands for, folder by folder in the order of their names.
-/

namespace PayloadContracts.CommandLine

/-- A pattern for paths. -/
structure Glob where
  /-- Where the first segment is looked for: the root, or the folder one is in. -/
  start : String
  segments : List Segment
  /-- Only folders count, as the pattern ends in a slash. -/
  foldersOnly : Bool
  deriving Repr

inductive ExpansionError where
  | badPattern (e : GlobError)
  | unreadable (path : String) (e : FileError)
  | nothingFound (pattern : String)
  deriving DecidableEq, Repr

namespace ExpansionError

def message : ExpansionError → String
  | badPattern e => e.message
  | unreadable path e =>
    "attempting to read \x60" ++ path ++ "\x60 resulted in an error: " ++ e.message
  | nothingFound pattern => "glob pattern matched no files: " ++ pattern

end ExpansionError

namespace Glob

/-- The pattern as a whole is read first, so that what is wrong with it is found where it stands there. -/
def ofText (text : String) : Except GlobError Glob := do
  let _ ← Mark.ofText text
  let absolute := Path.isAbsolute text
  let pieces := (Path.pieces text).drop (if absolute then 1 else 0)
  let foldersOnly := text.toList.getLast? = some '/'
  let segments ← (if foldersOnly then pieces.dropLast else pieces).mapM Segment.ofText
  return ⟨if absolute then "/" else ".", segments, foldersOnly⟩

variable {m : Type → Type} [Monad m]

/-- The path of something in a folder; what is in the folder one is in goes by its bare name. -/
def within (folder name : String) : String :=
  if Path.isHere folder then name else Path.join folder name

/-- What is in a folder, in the order of the names. -/
def sortedList (files : Files m) (path : String) : ExceptT ExpansionError m (List Place) := do
  match ← files.list path with
  | .error e => throw (.unreadable path e)
  | .ok places => return places.mergeSort fun a b => a.path ≤ b.path

def isCounted (foldersOnly : Bool) (place : Place) : Bool := !foldersOnly || place.isFolder

/-- The places below `place` that the segments lead to. Each step takes one segment or goes one folder
deeper, and `limit` bounds the steps. -/
def placesBelow (files : Files m) (foldersOnly : Bool) :
    Nat → List Segment → Place → ExceptT ExpansionError m (List Place)
  | 0, _, _ => return []
  | _, [], _ => return []
  | limit + 1, segment :: rest, place => do
    let reach (rest : List Segment) (next : Place) : ExceptT ExpansionError m (List Place) :=
      if rest.isEmpty then return (if isCounted foldersOnly next then [next] else [])
      else placesBelow files foldersOnly limit rest next
    match segment with
    | .literal name =>
      let path := within place.path name
      if name = "." || name = ".." then
        if place.isFolder then reach rest ⟨path, true⟩ else return []
      else
        match ← files.find? path with
        | some next => reach rest next
        | none => return []
    | .wild _ =>
      if !place.isFolder then return []
      let children ← sortedList files place.path
      let dots ← segment.dots.mapM fun name =>
        reach rest ⟨Path.join place.path name, true⟩
      let found ← children.mapM fun child =>
        if segment.matchesName child.path then
          reach rest { child with path := within place.path child.path }
        else return []
      return (dots ++ found).flatten
    | .anyFolders =>
      if !place.isFolder then return []
      let rest := rest.dropWhile (· = .anyFolders)
      let children ← sortedList files place.path
      let found ← children.mapM fun child => do
        let next := { child with path := within place.path child.path }
        let own ← match rest with
          | [] => pure (if next.isFolder then [next] else [])
          | segment :: rest => if segment.matchesName child.path then reach rest next else pure []
        let below ←
          if next.isFolder then placesBelow files foldersOnly limit (.anyFolders :: rest) next
          else pure []
        return own ++ below
      return found.flatten

/-- No path of more characters than this can be opened. -/
def pathLimit : Nat := 4096

def places (files : Files m) (g : Glob) : ExceptT ExpansionError m (List Place) :=
  placesBelow files g.foldersOnly (g.segments.length + pathLimit) g.segments ⟨g.start, true⟩

end Glob

/-- The paths that arguments stand for: patterns for those of the files they match, others for
themselves. -/
def expand {m : Type → Type} [Monad m] (files : Files m) :
    List String → ExceptT ExpansionError m (List String)
  | [] => return []
  | text :: rest => do
    let paths ←
      if isGlob text then
        match Glob.ofText text with
        | .error e => throw (.badPattern e)
        | .ok g =>
          let places ← g.places files
          if places.isEmpty then throw (.nothingFound text)
          pure (places.map Place.path)
      else pure [text]
    return paths ++ (← expand files rest)

end PayloadContracts.CommandLine
