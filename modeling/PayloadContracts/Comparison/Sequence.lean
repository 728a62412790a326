import PayloadContracts.Matching.Sequence

/-!
Places for children on two sides.
-/

namespace PayloadContracts

/-- Compares one place with those of the smaller side that fall to it. -/
def compareSlot (slot : Slot (Pattern → Verdict)) : List (Slot Pattern) → Verdict
  | [] => .accepted
  | other :: others =>
    if slot.occurs.admits other.occurs then
      (slot.under (slot.content other.content)).andThen fun _ => compareSlot slot others
    else
      slot.under (.reject .structuralAlignment
        ("A " ++ slot.occurs.label ++ " " ++ slot.describe ++ " does not accept a " ++
          other.occurs.label ++ " " ++ other.describe))

/-- Fits the places of the smaller side to those of the bigger one from left to right. -/
def compareSlots : List (Slot (Pattern → Verdict)) → List (Slot Pattern) → Verdict
  | [], [] => .accepted
  | [], extra :: _ =>
    extra.under (.reject .structuralAlignment
      ("The other pattern has an extra " ++ extra.describe ++ " that this one does not declare"))
  | slot :: slots, [] =>
    if slot.occurs != .required then compareSlots slots []
    else if slot.isText && (slot.content (.literal (.text ""))).isAccepted then compareSlots slots []
    else
      slot.under (.reject .structuralAlignment
        ("Expected " ++ slot.describe ++ " but the other pattern has no more nodes"))
  | slot :: slots, other :: others =>
    if slot.name == other.name then
      let run := ((other :: others).takeWhile fun next => slot.name == next.name).length
      let count := if slot.occurs == .required then 1 else slot.share slots run
      (compareSlot slot ((other :: others).take count)).andThen fun _ =>
        compareSlots slots ((other :: others).drop count)
    else if slot.occurs != .required then compareSlots slots (other :: others)
    else
      slot.under (.reject .structuralAlignment
        ("Expected " ++ slot.describe ++ ", the other pattern has " ++ other.describe ++ " here"))

end PayloadContracts
