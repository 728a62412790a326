import PayloadContracts.Text.Split

/-!
Paths as text: names with slashes between them.
-/

namespace PayloadContracts.CommandLine.Path

def pieces (path : String) : List String := Text.split '/' path

def isAbsolute (path : String) : Bool := path.toList.head? = some '/'

def join (folder name : String) : String :=
  if folder = "" || folder.toList.getLast? = some '/' then folder ++ name
  else folder ++ "/" ++ name

/-- A piece that leads nowhere, if it is not the first. -/
def isIdle (piece : String) : Bool := piece = "" || piece = "."

/-- The folder one is in, by its name of one dot. -/
def isHere (path : String) : Bool :=
  match pieces path with
  | "." :: rest => rest.all isIdle
  | _ => false

/-- The pieces of a path, the last one first, without those at its end that lead nowhere. -/
def dropIdle : List String → List String
  | [] => []
  | [first] => [first]
  | piece :: rest => if isIdle piece then dropIdle rest else piece :: rest

/-- A path from its pieces, the last one first. -/
def ofReversed (reversed : List String) : String :=
  if reversed = [""] then "/" else "/".intercalate reversed.reverse

/-- The folders that lead to a path, the nearest one first, all with the last piece first. The way
ends at the root, or at the empty path. -/
def foldersFrom : List String → List (List String)
  | [] => []
  | [first] => if first = "" then [] else [[]]
  | piece :: rest => if isIdle piece then foldersFrom rest else dropIdle rest :: foldersFrom rest

def folders (path : String) : List String := (foldersFrom (pieces path).reverse).map ofReversed

end PayloadContracts.CommandLine.Path
