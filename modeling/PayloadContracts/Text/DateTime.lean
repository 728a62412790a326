import PayloadContracts.Text.Blank
import PayloadContracts.Text.Digit

/-!
Points in time written as RFC 3339 has them.
-/

namespace PayloadContracts.Text

/-- A number of exactly so many digits, and what follows it. -/
def takeNumber? (count : Nat) (cs : List Char) : Option (Nat × List Char) :=
  let ds := cs.take count
  if ds.length = count ∧ ds.all isPlainDigit then some (ofDigits ds, cs.drop count) else none

def takeChar? (allowed : List Char) : List Char → Option (List Char)
  | c :: rest => if c ∈ allowed then some rest else none
  | [] => none

def isLeapYear (year : Nat) : Bool := year % 4 == 0 && (year % 100 != 0 || year % 400 == 0)

def daysIn (year month : Nat) : Nat :=
  if month = 2 then if isLeapYear year then 29 else 28
  else if month = 4 ∨ month = 6 ∨ month = 9 ∨ month = 11 then 30 else 31

def takeDate? (cs : List Char) : Option (List Char) := do
  let (year, cs) ← takeNumber? 4 cs
  let cs ← takeChar? ['-'] cs
  let (month, cs) ← takeNumber? 2 cs
  let cs ← takeChar? ['-'] cs
  let (day, cs) ← takeNumber? 2 cs
  guard (1 ≤ month ∧ month ≤ 12 ∧ 1 ≤ day ∧ day ≤ daysIn year month)
  return cs

/-- The time of day; second 60 stands for a leap second on any day. -/
def takeTime? (cs : List Char) : Option (List Char) := do
  let (hour, cs) ← takeNumber? 2 cs
  let cs ← takeChar? [':'] cs
  let (minute, cs) ← takeNumber? 2 cs
  let cs ← takeChar? [':'] cs
  let (second, cs) ← takeNumber? 2 cs
  guard (hour ≤ 23 ∧ minute ≤ 59 ∧ second ≤ 60)
  match cs with
  | '.' :: rest =>
    guard ((rest.takeWhile isPlainDigit) ≠ [])
    return rest.dropWhile isPlainDigit
  | _ => return cs

def takeOffset? (cs : List Char) : Option (List Char) :=
  match takeChar? ['Z', 'z'] cs with
  | some rest => some rest
  | none => do
    let cs ← takeChar? ['+', '-', '−'] cs
    let (hour, cs) ← takeNumber? 2 cs
    let cs ← takeChar? [':'] cs
    let (minute, cs) ← takeNumber? 2 cs
    guard (hour ≤ 23 ∧ minute ≤ 59)
    return cs

def isDateTimeChars (cs : List Char) : Bool :=
  let rest := do
    let cs ← takeDate? cs
    let cs ← takeChar? ['T', 't', ' '] cs
    let cs ← takeTime? cs
    takeOffset? cs
  rest == some []

/-- White space around the point in time does not count. -/
def isDateTime (s : String) : Bool := isDateTimeChars (trimChars s.toList)

def sampleDateTime : String := "2020-01-01T00:00:00+00:00"

theorem isDateTime_sampleDateTime : isDateTime sampleDateTime = true := by decide

end PayloadContracts.Text
