/-!
Text cut at every occurrence of a character.
-/

namespace PayloadContracts.Text

/-- The pieces between the marks; there is one piece more than there are marks. -/
def splitChars (mark : Char) : List Char → List (List Char)
  | [] => [[]]
  | c :: rest =>
    if c = mark then [] :: splitChars mark rest
    else
      match splitChars mark rest with
      | [] => [[c]]
      | piece :: pieces => (c :: piece) :: pieces

def split (mark : Char) (s : String) : List String := (splitChars mark s.toList).map String.ofList

theorem length_splitChars (mark : Char) (cs : List Char) :
    (splitChars mark cs).length = cs.count mark + 1 := by
  induction cs with
  | nil => rfl
  | cons c rest ih =>
    by_cases h : c = mark
    · simp [splitChars, h, ih]
    · cases hs : splitChars mark rest with
      | nil => simp [hs] at ih
      | cons piece pieces =>
        have hc : (c == mark) = false := by simpa using h
        simp only [splitChars, h, hs, if_false, List.length_cons, List.count_cons, hc] at ih ⊢
        simpa using ih

end PayloadContracts.Text
