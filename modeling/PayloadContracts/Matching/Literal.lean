import PayloadContracts.Json.Reader
import PayloadContracts.Pattern.Basic
import PayloadContracts.Value.Same

/-!
Values that stand for themselves, and example text read as a value.
-/

namespace PayloadContracts

/-- Reads a document; `field` names what the text is an example of. -/
def readDocument (text field : String) : Except ContractError Value :=
  match Json.read Json.nestingLimit text with
  | .ok json => .ok (.ofJson json)
  | .error e =>
    .error (.format field
      ("Expected " ++ field ++ ", could not read \"" ++ text ++ "\": " ++ e.message))

/-- Reads a document that has to be an object. -/
def readObject (text : String) : Except ContractError Value :=
  match readDocument text "json object" with
  | .ok (.object fields) => .ok (.object fields)
  | .ok other =>
    .error (.format "json object" ("Expected json object, actual was " ++ other.typeName))
  | .error e => .error e

/-- Reads a document that has to be a list. -/
def readItems (field text : String) : Except ContractError Value :=
  match readDocument text field with
  | .ok (.list items) => .ok (.list items)
  | .ok other => .error (.format field ("Expected json array, actual was " ++ other.typeName))
  | .error e => .error e

/-- An element cannot be given as example text. -/
def elementText (field : String) : ContractError :=
  .format field "xml examples must bind the text of a node, not the node itself"

namespace Value

/-- Accepts the value itself. -/
def check (expected v : Value) : Verdict :=
  if expected.same v then .accepted
  else .mismatch (expected.typeName ++ " " ++ expected.quoted) v

/-- Reads text as a value of the same kind. -/
def read (expected : Value) (text : String) : Except ContractError Value :=
  let orElse : Option Value → Except ContractError Value
    | some v => .ok v
    | none =>
      .error (.format expected.typeName
        ("Expected " ++ expected.quoted ++ ", actual was \"" ++ text ++ "\""))
  match expected with
  | .text _ => .ok (.text text)
  | .number _ => orElse (Scalar.number.value? text)
  | .boolean _ => orElse (Scalar.boolean.value? text)
  | .null => orElse (Scalar.null.value? text)
  | .object _ | .list _ => readDocument text expected.typeName
  | .node _ => .error (elementText expected.typeName)

end Value

end PayloadContracts
