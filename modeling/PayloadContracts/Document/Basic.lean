import PayloadContracts.Document.Settings
import PayloadContracts.Pattern.Source
import PayloadContracts.Specialisation

/-!
Contract documents: settings, named patterns, the pattern of the body and rows of examples.
-/

namespace PayloadContracts

open Json

/-- A contract as its document spells it out. -/
structure ContractDocument where
  config : Config
  patterns : Entries Json
  body : Json
  examples : List Row

structure Contract where
  scope : Scope
  body : Pattern
  rows : List Row

namespace ContractDocument

/-- The text of an example cell. -/
def cellText : Json → String
  | .text s => s
  | .null => ""
  | json => json.compact

def readRow (nesting : Nat) (c : Cursor) : Read Row :=
  c.readMap nesting fun nesting c =>
    (c.readValue nesting).map fun (json, c) => (cellText json, c)

def readPatterns (nesting : Nat) (c : Cursor) : Read (Entries Json) :=
  c.readMap nesting Cursor.readValue

def readExamples (nesting : Nat) (c : Cursor) : Read (List Row) := c.readSequence nesting readRow

/-- A document as far as it has been read. -/
structure Draft where
  config : Option Config
  patterns : Option (Entries Json)
  body : Option Json
  examples : Option (List Row)

def fieldNames : List String := ["config", "patterns", "body", "examples"]

def readEntry (nesting : Nat) (d : Draft) (name : String) (c : Cursor) : Read Draft :=
  match name with
  | "config" =>
    (c.readField name d.config (Config.read nesting)).map fun (x, c) =>
      ({ d with config := some x }, c)
  | "patterns" =>
    (c.readField name d.patterns (readPatterns nesting)).map fun (x, c) =>
      ({ d with patterns := some x }, c)
  | "body" =>
    (c.readField name d.body (Cursor.readValue nesting)).map fun (x, c) =>
      ({ d with body := some x }, c)
  | "examples" =>
    (c.readField name d.examples (readExamples nesting)).map fun (x, c) =>
      ({ d with examples := some x }, c)
  | _ => located (.key name) ((c.afterStructure '\x7d').fail (.unknownField name fieldNames))

def ofDraft (d : Draft) (body : Json) : ContractDocument :=
  ⟨d.config.getD {}, d.patterns.getD [], body, d.examples.getD []⟩

def readObject (nesting : Nat) (c : Cursor) : Read ContractDocument :=
  Read.next (c.foldKeys (readEntry nesting) (c.rest.length + 1) true ⟨none, none, none, none⟩)
    fun d c =>
      match d.body with
      | some body => .ok (ofDraft d body, c.skip)
      | none => c.skip.fail (.missingField "body")

def readList (nesting : Nat) (c : Cursor) : Read ContractDocument :=
  Read.next (c.readFieldAt 0 (Config.read nesting)) fun config c =>
    Read.next (c.readFieldAt 1 (readPatterns nesting)) fun patterns c =>
      Read.next (c.readFieldAt 2 (Cursor.readValue nesting)) fun body c =>
        match body with
        | none => (c.afterStructure ']').fail (.wrongLength 2 "struct ContractDocument with 4 elements")
        | some body =>
          Read.next (c.readFieldAt 3 (readExamples nesting)) fun examples c =>
            c.closeList.map fun (_, c) => (ofDraft ⟨config, patterns, some body, examples⟩ body, c)

def read (nesting : Nat) (c : Cursor) : Read ContractDocument :=
  c.readStructure nesting "struct ContractDocument" readList readObject

end ContractDocument

/-- Reads the text from its beginning; what follows the structure does not count. -/
def readText {α : Type} (reader : Nat → Cursor → Read α) (text : String) : Except ContractError α :=
  match reader nestingLimit (Cursor.start text) with
  | .ok (x, _) => .ok x
  | .error e => .error (.document ("at JSON path " ++ e.pathText ++ " → " ++ e.message))

def Config.ofText (text : String) : Except ContractError Config := readText Config.read text

namespace ContractDocument

def ofText (text : String) : Except ContractError ContractDocument :=
  readText ContractDocument.read text

/-- A named pattern, whose name has to be a token. -/
def definition (name : String) (source : Json) : Except ContractError (String × Pattern) :=
  if Token.isToken name then
    (locate (.key name) (Pattern.ofJson source)).map fun p => (Text.trim name, p)
  else
    .error (.invalidPattern ("named pattern keys look like (Name), found \"" ++ name ++ "\""))

def toContract (d : ContractDocument) : Except ContractError Contract :=
  match collect (d.patterns.map fun entry _ => definition entry.1 entry.2) with
  | .error e => .error e
  | .ok definitions =>
    (locate (.key "body") (Pattern.ofJson d.body)).map fun body =>
      ⟨.ofDefinitions (Entries.ofList definitions) d.config, body, d.examples⟩

end ContractDocument

namespace Contract

def ofText (text : String) : Except ContractError Contract :=
  match ContractDocument.ofText text with
  | .ok d => d.toContract
  | .error e => .error e

/-- The body, or the pattern of a name that may be given with or without its brackets. -/
def pattern (c : Contract) : Option String → Except ContractError Pattern
  | none => .ok c.body
  | some name =>
    c.scope.lookup
      (if Token.isToken name then Text.trim name else typeToken (Text.trim name))

/-- The cases of a pattern for all rows, or for an empty one if there are none. -/
def cases (c : Contract) (p : Pattern) : Outcome (List Pattern) :=
  if c.rows.isEmpty then p.cases [] c.scope
  else
    (Outcome.collect (c.rows.zipIdx.map fun row _ =>
      (p.cases row.1 c.scope).under (.key ("examples[" ++ toString row.2 ++ "]")))).map List.flatten

end Contract

end PayloadContracts
