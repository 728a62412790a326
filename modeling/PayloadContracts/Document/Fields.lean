import PayloadContracts.Json.Reader
import PayloadContracts.Json.Skipper
import PayloadContracts.Json.Text

/-!
Reading documents of a fixed shape: a structure is an object with its fields or a list of them in
order.
-/

namespace PayloadContracts.Json

variable {α σ : Type}

def JsonNumber.describe : JsonNumber → String
  | .whole i => "integer " ++ Fault.ticked (toString i)
  | .real x => "floating point " ++ Fault.ticked (Number.Layout.json.text x)

/-- Runs on a result, keeping its place. -/
def Read.next {α β : Type} (r : Read α) (f : α → Cursor → Read β) : Read β :=
  match r with
  | .error e => .error e
  | .ok (x, c) => f x c

namespace Cursor

/-- The fault of a value that is not of the type expected. -/
def failType (c : Cursor) (expected : String) : Except ReadError α :=
  let wrong (found : String) (c : Cursor) : Except ReadError α := c.fail (.wrongType found expected)
  match c.rest with
  | [] => c.fail .noValue
  | x :: _ =>
    if x = 'n' then
      match c.skip.readWord ['u', 'l', 'l'] with
      | .error e => .error e
      | .ok (_, c) => wrong "null" c
    else if x = 't' then
      match c.skip.readWord ['r', 'u', 'e'] with
      | .error e => .error e
      | .ok (_, c) => wrong ("boolean " ++ Fault.ticked "true") c
    else if x = 'f' then
      match c.skip.readWord ['a', 'l', 's', 'e'] with
      | .error e => .error e
      | .ok (_, c) => wrong ("boolean " ++ Fault.ticked "false") c
    else if x = '-' ∨ Text.isPlainDigit x then
      match c.readNumber with
      | .error e => .error e
      | .ok (n, c) => wrong (JsonNumber.describe n) c
    else if x = '"' then
      match c.skip.readQuoted with
      | .error e => .error e
      | .ok (s, c) => wrong ("string \"" ++ s ++ "\"") c
    else if x = '[' then wrong "sequence" c
    else if x = '\x7b' then wrong "map" c
    else c.failAtNext .noValue

/-- A number that fits an unsigned word. -/
def readWordNumber (c : Cursor) : Read Nat :=
  let c := c.skipBlanks
  match c.rest with
  | [] => c.fail .endOfValue
  | x :: _ =>
    if x = '-' ∨ Text.isPlainDigit x then
      match c.readNumber with
      | .error e => .error e
      | .ok (.whole i, c) =>
        if 0 ≤ i then .ok (i.toNat, c)
        else c.fail (.wrongValue (JsonNumber.describe (.whole i)) "usize")
      | .ok (n, c) => c.fail (.wrongType (JsonNumber.describe n) "usize")
    else c.failType "usize"

/-- The place after a structure that ends here, or here if it does not: where a fault of the
structure as a whole is. -/
def afterStructure (c : Cursor) (closing : Char) : Cursor :=
  let c := c.skipBlanks
  if c.rest.head? = some closing then c.skip else c

/-- Passes the closing bracket of a list all of whose fields have been read. -/
def closeList (c : Cursor) : Read Unit :=
  let c := c.skipBlanks
  match c.rest with
  | ']' :: _ => .ok ((), c.skip)
  | ',' :: _ =>
    let c := c.skip.skipBlanks
    if c.rest.head? = some ']' then c.failAtNext .trailingComma
    else c.failAtNext .trailingCharacters
  | [] => c.fail .endOfList
  | _ => c.failAtNext .trailingCharacters

/-- The field at an index of a list, if the list has that many. -/
def readFieldAt (c : Cursor) (index : Nat) (field : Cursor → Read α) : Read (Option α) :=
  match c.nextItem (index == 0) with
  | .error e => .error e
  | .ok none => .ok (none, c)
  | .ok (some c) => (located (.index index) (field c)).map fun (x, c) => (some x, c)

/-- The content of a field that has not been read before. -/
def readField (c : Cursor) (name : String) (known : Option α) (field : Cursor → Read α) : Read α :=
  if known.isSome then (c.afterStructure '\x7d').fail (.duplicateField name)
  else Read.next c.readColon fun _ c => located (.key name) (field c)

/-- Opens a bracket if one more may be open. -/
def openBracket (nesting : Nat) (c : Cursor) (inside : Nat → Read α) : Read α :=
  match nesting with
  | 0 => c.failAtNext .tooDeep
  | nesting + 1 => inside nesting

/-- A structure in either form. -/
def readStructure (nesting : Nat) (c : Cursor) (expected : String)
    (fromList fromObject : Nat → Cursor → Read α) : Read α :=
  let c := c.skipBlanks
  match c.rest with
  | [] => c.fail .endOfValue
  | '[' :: _ => openBracket nesting c fun inner => fromList inner c.skip
  | '\x7b' :: _ => openBracket nesting c fun inner => fromObject inner c.skip
  | _ => c.failType expected

/-- A table with contents of one kind. -/
def readMap (nesting : Nat) (c : Cursor) (content : Nat → Cursor → Read α) : Read (Entries α) :=
  let c := c.skipBlanks
  match c.rest with
  | [] => c.fail .endOfValue
  | '\x7b' :: _ => openBracket nesting c fun inner => c.readEntries (content inner)
  | _ => c.failType "a map"

def readSequence (nesting : Nat) (c : Cursor) (item : Nat → Cursor → Read α) : Read (List α) :=
  let c := c.skipBlanks
  match c.rest with
  | [] => c.fail .endOfValue
  | '[' :: _ => openBracket nesting c fun inner => c.readList (item inner)
  | _ => c.failType "a sequence"

end Cursor

end PayloadContracts.Json
