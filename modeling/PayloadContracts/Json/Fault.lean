/-!
What can be wrong with a JSON text, and where.
-/

namespace PayloadContracts.Json

/-- A line, counted from one, and the number of bytes of it that lie before the place. -/
structure Position where
  line : Nat
  column : Nat
  deriving DecidableEq, Repr

namespace Position

def start : Position := ⟨1, 0⟩

def after (p : Position) (c : Char) : Position :=
  if c = '\n' then ⟨p.line + 1, 0⟩ else ⟨p.line, p.column + c.utf8Size⟩

/-- The place after the first byte of a character. -/
def afterByte (p : Position) (c : Char) : Position :=
  if c = '\n' then ⟨p.line + 1, 0⟩ else ⟨p.line, p.column + 1⟩

/-- The place a number of bytes further on, or the end if there are fewer. -/
def afterBytes (p : Position) : Nat → List Char → Position
  | 0, _ => p
  | _, [] => p
  | n + 1, c :: rest =>
    if n + 1 < c.utf8Size then ⟨p.line, p.column + n + 1⟩
    else (p.after c).afterBytes (n + 1 - c.utf8Size) rest
termination_by _ cs => cs.length

end Position

inductive Fault where
  | endOfValue
  | endOfList
  | endOfObject
  | endOfText
  | noColon
  | noCommaInList
  | noCommaInObject
  | badWord
  | noValue
  | badEscape
  | badNumber
  | outOfRange
  | controlCharacter
  | keyNotText
  | loneSurrogate
  | brokenSurrogate
  | trailingComma
  | trailingCharacters
  | tooDeep
  | wrongType (found expected : String)
  | wrongValue (found expected : String)
  | wrongLength (found : Nat) (expected : String)
  | missingField (name : String)
  | duplicateField (name : String)
  | unknownField (name : String) (known : List String)
  | unknownVariant (name : String) (known : List String)
  deriving DecidableEq, Repr

namespace Fault

def ticked (name : String) : String := "`" ++ name ++ "`"

def message : Fault → String
  | endOfValue => "EOF while parsing a value"
  | endOfList => "EOF while parsing a list"
  | endOfObject => "EOF while parsing an object"
  | endOfText => "EOF while parsing a string"
  | noColon => "expected `:`"
  | noCommaInList => "expected `,` or `]`"
  | noCommaInObject => "expected `,` or `\x7d`"
  | badWord => "expected ident"
  | noValue => "expected value"
  | badEscape => "invalid escape"
  | badNumber => "invalid number"
  | outOfRange => "number out of range"
  | controlCharacter => "control character (\\u0000-\\u001F) found while parsing a string"
  | keyNotText => "key must be a string"
  | loneSurrogate => "lone leading surrogate in hex escape"
  | brokenSurrogate => "unexpected end of hex escape"
  | trailingComma => "trailing comma"
  | trailingCharacters => "trailing characters"
  | tooDeep => "recursion limit exceeded"
  | wrongType found expected => "invalid type: " ++ found ++ ", expected " ++ expected
  | wrongValue found expected => "invalid value: " ++ found ++ ", expected " ++ expected
  | wrongLength found expected => "invalid length " ++ toString found ++ ", expected " ++ expected
  | missingField name => "missing field " ++ ticked name
  | duplicateField name => "duplicate field " ++ ticked name
  | unknownField name known =>
    "unknown field " ++ ticked name ++ ", expected one of " ++ ", ".intercalate (known.map ticked)
  | unknownVariant name known =>
    "unknown variant " ++ ticked name ++ ", expected " ++ " or ".intercalate (known.map ticked)

end Fault

/-- A step from a document into one of its parts. -/
inductive Step where
  | key (name : String)
  | index (i : Nat)
  | unreadKey
  deriving DecidableEq, Repr

/-- A fault, its place in the text, and the part of the document being read. -/
structure ReadError where
  fault : Fault
  position : Position
  path : List Step
  deriving DecidableEq, Repr

namespace ReadError

def within (step : Step) (e : ReadError) : ReadError := { e with path := step :: e.path }

def message (e : ReadError) : String :=
  e.fault.message ++ " at line " ++ toString e.position.line ++ " column " ++
    toString e.position.column

/-- The steps as a path such as `a.b[0].c`; a single point stands for the whole document. -/
def pathText (e : ReadError) : String :=
  match e.path with
  | [] => "."
  | first :: rest =>
    let label : Step → String
      | .key name => name
      | .index i => "[" ++ toString i ++ "]"
      | .unreadKey => "?"
    let separator : Step → String
      | .index _ => ""
      | _ => "."
    label first ++ "".intercalate (rest.map fun step => separator step ++ label step)

end ReadError

end PayloadContracts.Json
