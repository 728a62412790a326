import PayloadContracts.Keys
import PayloadContracts.Outcome
import PayloadContracts.Row

/-!
The test cases of a table of named parts: which optional names are there, and which of its choices
each name takes.
-/

namespace PayloadContracts

variable {α : Type}

/-- A name that a case may have or not: an optional one that the row does not fill. -/
def isFree (row : Row) (mark name : String) : Bool :=
  isOptional name mark && !(Entries.contains row (canonical name mark))

/-- Extends sets of names by each of the names in turn; a free one is left out first and put in
second, as long as that makes no more sets than the limit. -/
def extendSets (row : Row) (mark : String) (limit : Nat) :
    List (List String) → List String → Except ContractError (List (List String))
  | sets, [] => .ok sets
  | sets, name :: names =>
    if isFree row mark name then
      if 2 * sets.length ≤ limit then
        extendSets row mark limit (sets.flatMap fun set => [set, set ++ [name]]) names
      else .error (.tooManyCombinations limit)
    else extendSets row mark limit (sets.map (· ++ [name])) names

/-- The sets of names that a case can have. -/
def keySets (names : List String) (row : Row) (mark : String) (limit : Nat) :
    Except ContractError (List (List String)) :=
  extendSets row mark limit [[]] names

/-- Multiplies as long as the product is within the limit. -/
def productFrom (limit : Nat) : Nat → List Nat → Except ContractError Nat
  | product, [] => .ok product
  | product, n :: ns =>
    if product * n ≤ limit then productFrom limit (product * n) ns
    else .error (.tooManyCombinations limit)

def productLength (lengths : List Nat) (limit : Nat) : Except ContractError Nat :=
  productFrom limit 1 lengths

/-- One choice from each list in all ways, the first list varying slowest. -/
def selections : List (List α) → List (List α)
  | [] => [[]]
  | choices :: rest => choices.flatMap fun choice => (selections rest).map (choice :: ·)

/-- One choice for each name in all ways. A name that comes again takes the later choice in its
first place. -/
def cartesian (options : List (String × List α)) (limit : Nat) :
    Except ContractError (List (Entries α)) :=
  match productLength (options.map fun option => option.2.length) limit with
  | .error e => .error e
  | .ok _ =>
    .ok ((selections (options.map Prod.snd)).map fun chosen =>
      Entries.ofList ((options.map Prod.fst).zip chosen))

/-- Adds all selections for the sets of names to those there are, of which there may be no more than
the limit. The last one found comes first. -/
def combineSets (limit : Nat) (options : Entries (List α)) (count : Nat) (found : List (Entries α)) :
    List (List String) → Except ContractError (List (Entries α))
  | [] => .ok found
  | set :: sets =>
    match cartesian (set.map fun name => (name, (Entries.get? options name).getD [])) limit with
    | .error e => .error e
    | .ok more =>
      if count + more.length ≤ limit then
        combineSets limit options (count + more.length) (more.reverse ++ found) sets
      else .error (.tooManyCombinations limit)

/-- The choices of a name, of which there has to be one. -/
def choicesOf (name : String) (choices : Outcome (List α)) : Outcome (String × List α) :=
  (choices.under (.key name)).bind fun choices =>
    if choices.isEmpty then .failed (.misfit ("key " ++ name ++ " has no specialisations"))
    else .done (name, choices)

/-- The cases of a table whose names have the given choices. -/
def keyCombinations (parts : Entries (Unit → Outcome (List α))) (row : Row) (mark : String)
    (limit : Nat) : Outcome (List (Entries α)) :=
  match keySets (Entries.names parts) row mark limit with
  | .error e => .failed e
  | .ok sets =>
    (Outcome.collect (parts.map fun part _ => choicesOf part.1 (part.2 ()))).bind fun options =>
      (Outcome.ofExcept (combineSets limit options 0 [] sets)).map List.reverse

end PayloadContracts
