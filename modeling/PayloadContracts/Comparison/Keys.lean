import PayloadContracts.Keys
import PayloadContracts.Verdict

/-!
Declared names of one pattern against those of another that is to be covered by it.
-/

namespace PayloadContracts

/-- Compares each name of the bigger side with what the smaller side declares for it. -/
def compareFields (kind : KeyKind) (smaller : Entries Pattern) :
    Entries (Pattern → Verdict) → Verdict
  | [] => .accepted
  | (name, compare) :: rest =>
    match kind.declared? smaller name with
    | none => compareFields kind smaller rest
    | some p =>
      ((compare p).under (.key (kind.canonical name))).andThen fun _ =>
        compareFields kind smaller rest

/-- A required name of the bigger side that is not required on the smaller one. -/
def notRequired? (kind : KeyKind) (bigger : Entries (Pattern → Verdict)) (smaller : Entries Pattern) :
    Option String :=
  (Entries.names bigger).find? fun name =>
    !kind.isOptional name && !(Entries.contains smaller name)

/-- A required name of the smaller side that the bigger one does not declare. -/
def notDeclared? (kind : KeyKind) (bigger : Entries (Pattern → Verdict)) (smaller : Entries Pattern) :
    Option String :=
  (Entries.names smaller).find? fun name =>
    !kind.isOptional name && (kind.declared? bigger name).isNone

/-- Every table of named parts that the smaller side allows is one that the bigger side allows. An
open smaller side allows names that it does not declare. -/
def compareKeys (kind : KeyKind) (policy : KeyPolicy) (smallerIsOpen : Bool)
    (bigger : Entries (Pattern → Verdict)) (smaller : Entries Pattern) : Verdict :=
  match notRequired? kind bigger smaller with
  | some name =>
    (Verdict.reject .missingKey (kind.title ++ " " ++ name ++
      (if Entries.contains smaller (name ++ kind.mark) then
        " is required here but optional in the other pattern"
      else " was missing"))).under (.key name)
  | none =>
    match policy with
    | .permissive => compareFields kind smaller bigger
    | .strict =>
      if smallerIsOpen then
        .reject .unexpectedKey "The other pattern accepts unknown keys but this one does not"
      else
        match notDeclared? kind bigger smaller with
        | some name =>
          (Verdict.reject .unexpectedKey
            (kind.title ++ " " ++ name ++ " was unexpected")).under (.key name)
        | none => compareFields kind smaller bigger

end PayloadContracts
