import PayloadContracts.Config
import PayloadContracts.Pattern.Basic

/-!
The names that a pattern declares: fields of a record, or attributes of an element.
-/

namespace PayloadContracts

/-- What the names are called in messages, and the mark of those that may be left out. -/
structure KeyKind where
  noun : String
  title : String
  mark : String

namespace KeyKind

def field : KeyKind := ⟨"key", "Key", fieldMark⟩

def attributes : KeyKind := ⟨"attribute", "Attribute", attributeMark⟩

variable {α : Type}

def isOptional (kind : KeyKind) (name : String) : Bool := PayloadContracts.isOptional name kind.mark

def canonical (kind : KeyKind) (name : String) : String := PayloadContracts.canonical name kind.mark

/-- What is declared for a name, spelled as it is, with the mark, or without it. -/
def declared? (kind : KeyKind) (entries : Entries α) (name : String) : Option α :=
  (Entries.get? entries name).orElse fun _ =>
    (Entries.get? entries (name ++ kind.mark)).orElse fun _ =>
      Entries.get? entries (kind.canonical name)

end KeyKind

inductive KeyMismatch where
  | missing (name : String)
  | unexpected (name : String)
  deriving DecidableEq, Repr

/-- The first declared name that is not optional and not there, or else, under the strict policy,
the first name there that is not declared, neither plainly nor with the mark. -/
def keyMismatch? (declared present : List String) (policy : KeyPolicy) (mark : String) :
    Option KeyMismatch :=
  match declared.find? fun name => !isOptional name mark && !(present.contains name) with
  | some name => some (.missing name)
  | none =>
    match policy with
    | .permissive => none
    | .strict =>
      (present.find? fun name => !(declared.contains name) && !(declared.contains (name ++ mark))).map
        .unexpected

/-- Attributes that bind name spaces are no content. -/
def isNamespace (name : String) : Bool := name == "xmlns" || Text.startsWith name "xmlns:"

def contentAttributes {α : Type} (attributes : Entries α) : Entries α :=
  attributes.filter fun entry => !isNamespace entry.1

end PayloadContracts
