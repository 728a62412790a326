import PayloadContracts.Json.Basic
import PayloadContracts.Text.Blank

/-!
Payload values: JSON and XML data in one type.
-/

namespace PayloadContracts

/-- An element, with children of some kind. -/
structure Node (α : Type) where
  name : String
  qualifier : Option String
  attributes : List (String × String)
  children : List α
  deriving Inhabited

inductive Value where
  | null
  | boolean (b : Bool)
  | number (x : Number)
  | text (s : String)
  | object (fields : List (String × Value))
  | list (items : List Value)
  | node (n : Node Value)
  deriving Inhabited

theorem Node.sizeOf_children_lt {α : Type} [SizeOf α] (n : Node α) :
    sizeOf n.children < sizeOf n := by
  cases n
  simp only [Node.mk.sizeOf_spec]
  omega

namespace Node

/-- The local part of a name and what stands before its first colon. -/
def splitName (name : String) : Option String × String :=
  let front := name.toList.takeWhile (· ≠ ':')
  match name.toList.drop front.length with
  | [] => (none, name)
  | _ :: rest => (some (String.ofList front), String.ofList rest)

/-- An empty element of a name that may be qualified. -/
def ofName {α : Type} (name : String) : Node α :=
  let (qualifier, localName) := splitName name
  ⟨localName, qualifier, [], []⟩

/-- The name with its qualifier, as markup has it. -/
def realName {α : Type} (n : Node α) : String :=
  match n.qualifier with
  | some qualifier => qualifier ++ ":" ++ n.name
  | none => n.name

end Node

namespace Value

def typeName : Value → String
  | null => "null"
  | boolean _ => "boolean"
  | number _ => "number"
  | text _ => "string"
  | object _ => "json object"
  | list _ => "json array"
  | node _ => "xml node"

def isNull : Value → Bool
  | null => true
  | _ => false

/-- Text of white space only, which carries no content between elements. -/
def isLayout : Value → Bool
  | text s => Text.isBlankText s
  | _ => false

/-- The value of a JSON document. -/
def ofJson : Json → Value
  | .null => .null
  | .boolean b => .boolean b
  | .number n => .number n.toNumber
  | .text s => .text s
  | .list items => .list (items.map fun item => ofJson item)
  | .object fields => .object (fields.map fun field => (field.1, ofJson field.2))
termination_by json => sizeOf json
decreasing_by
  · rename_i h; have := List.sizeOf_lt_of_mem h; simp; omega
  · rename_i h; have := Entries.sizeOf_snd_lt h; simp; omega

end Value

end PayloadContracts
