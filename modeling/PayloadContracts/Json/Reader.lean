import PayloadContracts.Json.Numeric
import PayloadContracts.Json.Quoted

/-!
Reading documents. Lists and objects are read item by item with readers for their items, so that
documents of a fixed shape are read the same way as free ones.
-/

namespace PayloadContracts.Json

/-- How many brackets may be open at once. -/
def nestingLimit : Nat := 127

variable {α σ : Type}

def located (step : Step) (r : Except ReadError α) : Except ReadError α := r.mapError (·.within step)

namespace Cursor

/-- Moves to the next item of a list whose opening bracket has been passed; nothing at its end. -/
def nextItem (c : Cursor) (first : Bool) : Except ReadError (Option Cursor) :=
  let c := c.skipBlanks
  match c.rest with
  | [] => c.fail .endOfList
  | ']' :: _ => .ok none
  | x :: _ =>
    if first then .ok (some c)
    else if x = ',' then
      let c := c.skip.skipBlanks
      match c.rest with
      | [] => c.fail .endOfValue
      | ']' :: _ => c.failAtNext .trailingComma
      | _ => .ok (some c)
    else c.failAtNext .noCommaInList

/-- Moves to the next key of an object whose opening brace has been passed, and over its quote;
nothing at the end of the object. -/
def nextKey (c : Cursor) (first : Bool) : Except ReadError (Option Cursor) :=
  let c := c.skipBlanks
  let key (c : Cursor) : Except ReadError (Option Cursor) :=
    match c.rest with
    | '"' :: _ => .ok (some c.skip)
    | '\x7d' :: _ => c.failAtNext .trailingComma
    | [] => c.fail .endOfValue
    | _ => c.failAtNext .keyNotText
  match c.rest with
  | [] => c.fail .endOfObject
  | '\x7d' :: _ => .ok none
  | x :: _ =>
    if first then key c
    else if x = ',' then key c.skip.skipBlanks
    else c.failAtNext .noCommaInObject

/-- Reads items up to the closing bracket, which is left in place. -/
def foldItems (item : σ → Nat → Cursor → Read σ) : (bound index : Nat) → σ → Cursor → Read σ
  | 0, _, _, c => c.fail .endOfList
  | bound + 1, index, s, c =>
    match c.nextItem (index == 0) with
    | .error e => .error e
    | .ok none => .ok (s, c.skipBlanks)
    | .ok (some c) =>
      match located (.index index) (item s index c) with
      | .error e => .error e
      | .ok (s, c) => foldItems item bound (index + 1) s c

/-- Reads keys and what follows them up to the closing brace, which is left in place. -/
def foldKeys (entry : σ → String → Cursor → Read σ) : (bound : Nat) → Bool → σ → Cursor → Read σ
  | 0, _, _, c => c.fail .endOfObject
  | bound + 1, first, s, c =>
    match located .unreadKey (c.nextKey first) with
    | .error e => .error e
    | .ok none => .ok (s, c.skipBlanks)
    | .ok (some c) =>
      match located .unreadKey c.readQuoted with
      | .error e => .error e
      | .ok (key, c) =>
        match entry s key c with
        | .error e => .error e
        | .ok (s, c) => foldKeys entry bound false s c

/-- Reads the items of a list from its opening bracket to after its closing one. -/
def readList (c : Cursor) (item : Cursor → Read α) : Read (List α) :=
  match c.skip.foldItems (fun items _ c => (item c).map fun (x, c) => (x :: items, c))
      (c.rest.length + 1) 0 [] with
  | .error e => .error e
  | .ok (items, c) => .ok (items.reverse, c.skip)

/-- Reads an object from its opening brace to after its closing one. A key that comes again keeps
its place and takes the later content. -/
def readEntries (c : Cursor) (content : Cursor → Read α) : Read (Entries α) :=
  let entry (entries : Entries α) (key : String) (c : Cursor) : Read (Entries α) :=
    match c.readColon with
    | .error e => .error e
    | .ok (_, c) =>
      (located (.key key) (content c)).map fun (x, c) => (Entries.insert entries key x, c)
  match c.skip.foldKeys entry (c.rest.length + 1) true [] with
  | .error e => .error e
  | .ok (entries, c) => .ok (entries, c.skip)

/-- Reads a document in which at most `nesting` brackets are open at once. -/
def readValue (nesting : Nat) (c : Cursor) : Read Json :=
  let c := c.skipBlanks
  match c.rest with
  | [] => c.fail .endOfValue
  | x :: _ =>
    if x = 'n' then (c.skip.readWord ['u', 'l', 'l']).map fun (_, c) => (.null, c)
    else if x = 't' then (c.skip.readWord ['r', 'u', 'e']).map fun (_, c) => (.boolean true, c)
    else if x = 'f' then (c.skip.readWord ['a', 'l', 's', 'e']).map fun (_, c) => (.boolean false, c)
    else if x = '-' ∨ Text.isPlainDigit x then c.readNumber.map fun (n, c) => (.number n, c)
    else if x = '"' then c.skip.readQuoted.map fun (s, c) => (.text s, c)
    else if x = '[' ∨ x = '\x7b' then
      match nesting with
      | 0 => c.failAtNext .tooDeep
      | nesting + 1 =>
        if x = '[' then (c.readList (readValue nesting)).map fun (items, c) => (.list items, c)
        else (c.readEntries (readValue nesting)).map fun (fields, c) => (.object fields, c)
    else c.failAtNext .noValue

/-- Whatever follows must be white space. -/
def finish (c : Cursor) (x : α) : Except ReadError α :=
  let c := c.skipBlanks
  if c.rest.isEmpty then .ok x else c.failAtNext .trailingCharacters

end Cursor

/-- Reads a text that is one document. -/
def read (nesting : Nat) (text : String) : Except ReadError Json :=
  match (Cursor.start text).readValue nesting with
  | .error e => .error e
  | .ok (json, c) => c.finish json

end PayloadContracts.Json
