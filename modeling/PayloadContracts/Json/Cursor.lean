import PayloadContracts.Json.Fault

/-!
A place in a text while it is read.
-/

namespace PayloadContracts.Json

structure Cursor where
  rest : List Char
  position : Position

/-- The result of reading from a place: what was read, and the place after it. -/
abbrev Read (α : Type) := Except ReadError (α × Cursor)

namespace Cursor

def start (text : String) : Cursor := ⟨text.toList, .start⟩

def skip (c : Cursor) : Cursor :=
  match c.rest with
  | [] => c
  | x :: rest => ⟨rest, c.position.after x⟩

/-- Moves over as many characters as the list has. -/
def skipOver (c : Cursor) : List Char → Cursor
  | [] => c
  | _ :: more => c.skip.skipOver more

def isLayout (x : Char) : Bool := x = ' ' || x = '\n' || x = '\t' || x = '\r'

def skipBlanks (c : Cursor) : Cursor := c.skipOver (c.rest.takeWhile isLayout)

/-- A fault at the place reached. -/
def fail {α : Type} (c : Cursor) (fault : Fault) : Except ReadError α :=
  .error ⟨fault, c.position, []⟩

/-- A fault at the next byte, which is counted in. -/
def failAtNext {α : Type} (c : Cursor) (fault : Fault) : Except ReadError α :=
  match c.rest with
  | [] => c.fail fault
  | x :: _ => .error ⟨fault, c.position.afterByte x, []⟩

/-- Reads the rest of a word whose first letter told it apart. -/
def readWord (c : Cursor) : List Char → Read Unit
  | [] => .ok ((), c)
  | letter :: word =>
    match c.rest with
    | [] => c.fail .endOfValue
    | x :: _ => if x = letter then c.skip.readWord word else c.failAtNext .badWord

/-- Passes the colon between a key and its content. -/
def readColon (c : Cursor) : Read Unit :=
  let c := c.skipBlanks
  match c.rest with
  | ':' :: _ => .ok ((), c.skip)
  | [] => c.fail .endOfObject
  | _ => c.failAtNext .noColon

end Cursor

end PayloadContracts.Json
