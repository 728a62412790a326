import PayloadContracts.Slot

/-!
Items of a list, alternatives of a union and children of an element against the checks for them.
-/

namespace PayloadContracts

def checkAll {α : Type} (check : α → Verdict) : List α → Verdict
  | [] => .accepted
  | x :: xs => (check x).andThen fun _ => checkAll check xs

/-- Checks items in turn; a failure lies at the index of its item. -/
def checkItems (check : Value → Verdict) : (index : Nat) → List Value → Verdict
  | _, [] => .accepted
  | index, v :: vs => ((check v).under (.index index)).andThen fun _ => checkItems check (index + 1) vs

/-- Accepts what one of the checks accepts; otherwise the last failure stands. -/
def checkUnion (v : Value) : (last : Verdict) → List (Value → Verdict) → Verdict
  | last, [] => last
  | _, check :: checks =>
    match check v with
    | .accepted => .accepted
    | .rejected f => checkUnion v (.rejected f) checks

/-- How many of the children at the front a place takes that need not have exactly one: those of its
name, less the ones that places after it of the same name need. -/
def Slot.share {α β : Type} (slot : Slot α) (after : List (Slot β)) (run : Nat) : Nat :=
  let available := run - Slot.reserved slot.name after
  if slot.occurs == .optional then min available 1 else available

/-- Fits children to places from left to right. A place without a fixed count takes the children of
its name that come next, but leaves enough of them for the places of that name right after it. -/
def checkSlots : List (Slot (Value → Verdict)) → List Value → Verdict
  | [], [] => .accepted
  | [], .node extra :: _ =>
    (Verdict.reject .structuralAlignment ("Unexpected trailing node " ++ extra.name)).under
      (.key extra.name)
  | [], extra :: _ =>
    .reject .structuralAlignment ("Unexpected trailing text \"" ++ extra.toText ++ "\"")
  | slot :: slots, vs =>
    if slot.occurs == .required then
      match vs with
      | v :: vs => (slot.content v).andThen fun _ => checkSlots slots vs
      | [] =>
        if slot.isText then (slot.content (.text "")).andThen fun _ => checkSlots slots []
        else
          slot.under (.reject .structuralAlignment
            ("Expected " ++ slot.describe ++ " but there were no more nodes"))
    else
      let count := slot.share slots (vs.takeWhile slot.accepts).length
      (checkAll slot.content (vs.take count)).andThen fun _ => checkSlots slots (vs.drop count)

end PayloadContracts
