import PayloadContracts.Error
import PayloadContracts.Number.Reading
import PayloadContracts.Text.DateTime

/-!
The kinds of plain values that the builtin tokens name.
-/

namespace PayloadContracts

inductive Scalar where
  | number
  | string
  | boolean
  | null
  /-- A point in time, carried as text. -/
  | dateTime
  /-- A number carried as text. -/
  | numberInString
  /-- No content: null, or the blank text of an element. -/
  | empty
  deriving DecidableEq, Repr

namespace Scalar

def typeName : Scalar → String
  | number => "number"
  | string => "string"
  | boolean => "boolean"
  | null => "null"
  | dateTime => "datetime"
  | numberInString => "number in string"
  | empty => "empty"

/-- The kind that a builtin token names; absent content has no token of its own. -/
def ofTokenName? (name : String) : Option Scalar :=
  [number, string, boolean, null, dateTime, numberInString].find? (·.typeName = name)

def admits : Scalar → Value → Bool
  | number, .number _ => true
  | string, .text _ => true
  | boolean, .boolean _ => true
  | null, .null => true
  | dateTime, .text s => Text.isDateTime s
  | numberInString, .text s => Number.looksNumeric s
  | empty, v => v.isNull || v.isLayout
  | _, _ => false

def check (kind : Scalar) (v : Value) : Verdict :=
  if kind.admits v then .accepted else .mismatch kind.typeName v

def sample : Scalar → Value
  | number => .number (Number.ofNat 1)
  | string => .text "example"
  | boolean => .boolean true
  | null | empty => .null
  | dateTime => .text Text.sampleDateTime
  | numberInString => .text "1"

/-- The value that a text stands for. -/
def value? (kind : Scalar) (text : String) : Option Value :=
  let trimmed := Text.trim text
  match kind with
  | number => (Number.read? trimmed).map .number
  | string => some (.text text)
  | boolean =>
    if trimmed = "true" then some (.boolean true)
    else if trimmed = "false" then some (.boolean false) else none
  | null => if trimmed = "" ∨ trimmed = "null" then some .null else none
  | empty => if trimmed = "" then some .null else none
  | dateTime => if Text.isDateTime trimmed then some (.text trimmed) else none
  | numberInString => if Number.looksNumeric trimmed then some (.text trimmed) else none

def read (kind : Scalar) (text : String) : Except ContractError Value :=
  match kind.value? text with
  | some v => .ok v
  | none =>
    .error (.format kind.typeName
      ("Expected " ++ kind.typeName ++ ", actual was \"" ++ text ++ "\""))

/-- Every value of the second kind is one of the first. -/
def covers (bigger smaller : Scalar) : Bool :=
  bigger == smaller ||
    match bigger, smaller with
    | string, dateTime | string, numberInString | empty, null => true
    | _, _ => false

end Scalar

end PayloadContracts
