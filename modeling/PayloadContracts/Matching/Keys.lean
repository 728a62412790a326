import PayloadContracts.Keys

/-!
Named parts of a value against the checks declared for them.
-/

namespace PayloadContracts

variable {α : Type}

/-- Checks each declared part that is there, under the name that values have for it. -/
def checkFields (kind : KeyKind) : Entries (α → Verdict) → Entries α → Verdict
  | [], _ => .accepted
  | (name, check) :: rest, parts =>
    match Entries.get? parts (kind.canonical name) with
    | none => checkFields kind rest parts
    | some part =>
      ((check part).under (.key (kind.canonical name))).andThen fun _ => checkFields kind rest parts

/-- Checks the names first and the parts after them. -/
def checkKeys (kind : KeyKind) (policy : KeyPolicy) (fields : Entries (α → Verdict))
    (parts : Entries α) : Verdict :=
  match keyMismatch? (Entries.names fields) (Entries.names parts) policy kind.mark with
  | some (.missing name) =>
    let name := kind.canonical name
    (Verdict.reject .missingKey
      ("Expected " ++ kind.noun ++ " named \"" ++ name ++ "\" was missing")).under (.key name)
  | some (.unexpected name) =>
    (Verdict.reject .unexpectedKey
      (kind.title ++ " named \"" ++ name ++ "\" was unexpected")).under (.key name)
  | none => checkFields kind fields parts

end PayloadContracts
