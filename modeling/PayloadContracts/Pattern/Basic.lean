import PayloadContracts.Pattern.Scalar
import PayloadContracts.Text.Ending

/-!
Patterns for payload values.
-/

namespace PayloadContracts

/-- How often a child of an element may stand in its place. -/
inductive Occurs where
  | required
  | optional
  | multiple
  deriving DecidableEq, Repr

/-- An element as a pattern describes it, with parts of some kind. A type name stands for the
attributes and children of the pattern of that name. -/
structure Shape (α : Type) where
  name : String
  qualifier : Option String
  /-- Optional attributes carry the mark of such in their names. -/
  attributes : List (String × α)
  children : List α
  occurs : Occurs
  typeRef : Option String

inductive Pattern where
  | literal (value : Value)
  | scalar (kind : Scalar)
  /-- An object; optional fields carry the mark of such in their names, and an open record lets
  through fields that it does not declare. -/
  | record (fields : List (String × Pattern)) (isOpen : Bool)
  | element (shape : Shape Pattern)
  | union (alternatives : List Pattern)
  /-- The pattern that a scope has under a token. -/
  | reference (token : String)
  | list (item : Pattern)

def occursAttribute : String := "contract_occurs"

namespace Occurs

def label : Occurs → String
  | required => "required"
  | optional => "optional"
  | multiple => "multiple"

def ofAttribute (text : String) : Except ContractError Occurs :=
  let label := Text.trim text
  match [required, optional, multiple].find? (·.label = label) with
  | some occurs => .ok occurs
  | none =>
    .error (.invalidPattern
      (occursAttribute ++ " must be required, optional or multiple, found \"" ++ label ++ "\""))

/-- Whatever number of children the second allows, the first allows. -/
def admits : Occurs → Occurs → Bool
  | required, smaller => smaller == required
  | optional, smaller => smaller != multiple
  | multiple, _ => true

end Occurs

/-- The mark at the end of a name that may be left out. -/
def fieldMark : String := "?"

def attributeMark : String := ".opt"

/-- The name that makes a record open. -/
def openMark : String := "..."

def typeAttribute : String := "contract_type"

/-- The token of absent content in a union. -/
def emptyToken : String := "(empty)"

def isOptional (name mark : String) : Bool := Text.endsWith name mark

/-- A name without the mark, as values have it. -/
def canonical (name mark : String) : String := Text.withoutEnd name mark

namespace Shape

variable {α : Type}

/-- A required element without content of a name that may be qualified. -/
def ofName (name : String) : Shape α :=
  let (qualifier, localName) := Node.splitName name
  ⟨localName, qualifier, [], [], .required, none⟩

def typeName (shape : Shape α) : String := "xml node " ++ shape.name

theorem sizeOf_children_lt [SizeOf α] (shape : Shape α) : sizeOf shape.children < sizeOf shape := by
  cases shape
  simp
  omega

theorem sizeOf_attributes_lt [SizeOf α] (shape : Shape α) :
    sizeOf shape.attributes < sizeOf shape := by
  cases shape
  simp
  omega

end Shape

namespace Pattern

/-- A pattern or nothing at all. -/
def nullable (p : Pattern) : Pattern := .union [.reference emptyToken, p]

/-- A record of declared fields; a field named `...` declares it open. -/
def ofFields (fields : Entries Pattern) : Pattern :=
  .record (Entries.erase fields openMark) (Entries.contains fields openMark)

def isReference : Pattern → Bool
  | reference _ => true
  | _ => false

/-- Stands for absent content. -/
def isEmptyMarker : Pattern → Bool
  | reference token => token == emptyToken
  | scalar kind => kind == .empty
  | _ => false

/-- What a message calls the pattern. -/
def typeName : Pattern → String
  | literal v => "exact " ++ v.typeName ++ " " ++ v.display
  | scalar kind => kind.typeName
  | record .. => "json object"
  | element shape => shape.typeName
  | union alternatives => "(" ++ " or ".intercalate (alternatives.map fun p => typeName p) ++ ")"
  | reference token => token
  | list item => "list of " ++ typeName item

def withOccurs (occurs : Occurs) : Pattern → Pattern
  | element shape => .element { shape with occurs }
  | p => p

end Pattern

end PayloadContracts
