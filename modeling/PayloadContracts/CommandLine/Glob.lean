/-!
Patterns for the names of files.
-/

namespace PayloadContracts.CommandLine

/-- A range of characters, both ends included. -/
structure CharRange where
  low : Char
  high : Char
  deriving DecidableEq, Repr

def CharRange.contains (range : CharRange) (c : Char) : Bool := range.low ≤ c && c ≤ range.high

/-- What one mark of a pattern stands for. -/
inductive Mark where
  | char (c : Char)
  | anyChar
  | anyText
  /-- A character in one of the ranges, or in none of them. -/
  | oneOf (ranges : List CharRange) (negated : Bool)
  /-- Any number of folders, one inside the other. -/
  | anyFolders
  deriving DecidableEq, Repr

inductive GlobFault where
  | manyStars
  | partialFolders
  | badClass
  deriving DecidableEq, Repr

/-- A fault, and how many characters of the pattern stand before it. -/
structure GlobError where
  fault : GlobFault
  position : Nat
  deriving DecidableEq, Repr

def GlobFault.message : GlobFault → String
  | manyStars => "wildcards are either regular \x60*\x60 or recursive \x60**\x60"
  | partialFolders => "recursive wildcards must form a single path component"
  | badClass => "invalid range pattern"

def GlobError.message (e : GlobError) : String :=
  "Pattern syntax error near position " ++ toString e.position ++ ": " ++ e.fault.message

/-- Whether a text asks to be expanded, if only to find that it matches nothing. -/
def isGlob (text : String) : Bool := text.toList.any fun c => c ∈ ['*', '?', '[', '\x7b']

namespace Mark

/-- The ranges between brackets: a dash between two characters makes one of them. -/
def ranges : List Char → List CharRange
  | low :: '-' :: high :: rest => ⟨low, high⟩ :: ranges rest
  | c :: rest => ⟨c, c⟩ :: ranges rest
  | [] => []

/-- The characters up to the closing bracket, which is not the first one, and what follows it. -/
def closeClass : List Char → Option (List Char × List Char)
  | [] => none
  | first :: rest =>
    match rest.dropWhile (· ≠ ']') with
    | [] => none
    | _ :: after => some (first :: rest.takeWhile (· ≠ ']'), after)

/-- Reads on behind an opening bracket. -/
def readClass (cs : List Char) : Option (Mark × List Char) :=
  match cs with
  | '!' :: rest => (closeClass rest).map fun (inside, after) => (oneOf (ranges inside) true, after)
  | cs => (closeClass cs).map fun (inside, after) => (oneOf (ranges inside) false, after)

theorem length_closeClass {cs inside after : List Char} (h : closeClass cs = some (inside, after)) :
    after.length < cs.length := by
  unfold closeClass at h
  split at h
  · cases h
  · rename_i first rest
    split at h
    · cases h
    · rename_i c tail heq
      cases h
      have := (List.dropWhile_sublist (p := fun c => decide (c ≠ ']')) (l := rest)).length_le
      rw [heq] at this
      simp only [List.length_cons] at this ⊢
      omega

theorem length_readClass {cs after : List Char} {mark : Mark}
    (h : readClass cs = some (mark, after)) : after.length < cs.length := by
  unfold readClass at h
  split at h <;> obtain ⟨⟨inside, tail⟩, hc, hm⟩ := Option.map_eq_some_iff.1 h <;> cases hm <;>
    have := length_closeClass hc <;> simp only [List.length_cons] at * <;> omega

/-- Whether a folder begins where this is the character before. -/
def beginsFolder (previous : Option Char) : Bool := previous.all (· = '/')

/-- Reads marks from a position on. -/
def read (position : Nat) (previous : Option Char) (cs : List Char) : Except GlobError (List Mark) :=
  match cs with
  | [] => .ok []
  | '?' :: rest => (read (position + 1) (some '?') rest).map (anyChar :: ·)
  | '[' :: rest =>
    match _h : readClass rest with
    | none => .error ⟨.badClass, position⟩
    | some (mark, after) =>
      (read (position + 1 + (rest.length - after.length)) (some ']') after).map (mark :: ·)
  | '*' :: '*' :: '*' :: _ => .error ⟨.manyStars, position + 2⟩
  | '*' :: '*' :: rest =>
    if !beginsFolder previous then .error ⟨.partialFolders, position - 1⟩
    else
      match rest with
      | [] => .ok [anyFolders]
      | '/' :: rest => (read (position + 3) (some '/') rest).map (anyFolders :: ·)
      | _ => .error ⟨.partialFolders, position + 2⟩
  | '*' :: rest => (read (position + 1) (some '*') rest).map (anyText :: ·)
  | c :: rest => (read (position + 1) (some c) rest).map (char c :: ·)
termination_by cs.length
decreasing_by
  all_goals simp only [List.length_cons]
  all_goals try omega
  have := length_readClass _h
  omega

def ofText (text : String) : Except GlobError (List Mark) := read 0 none text.toList

/-- Whether a mark for one character stands for this one. -/
def admits : Mark → Char → Bool
  | char d, c => c = d
  | anyChar, _ => true
  | oneOf ranges negated, c => (ranges.any (·.contains c)) ≠ negated
  | anyText, _ | anyFolders, _ => false

/-- Whether some end of the text, or all of it, is accepted. -/
def someEnd (accepts : List Char → Bool) : List Char → Bool
  | [] => accepts []
  | c :: rest => accepts (c :: rest) || someEnd accepts rest

def matchesName : List Mark → List Char → Bool
  | [], cs => cs.isEmpty
  | anyText :: marks, cs => someEnd (matchesName marks) cs
  | mark :: marks, c :: cs => mark.admits c && matchesName marks cs
  | _ :: _, [] => false

end Mark

/-- A part of a pattern for paths, between two slashes. -/
inductive Segment where
  | literal (name : String)
  | wild (marks : List Mark)
  | anyFolders
  deriving DecidableEq, Repr

namespace Segment

def ofText (text : String) : Except GlobError Segment := do
  let marks ← Mark.ofText text
  if marks.contains .anyFolders then return anyFolders
  else if marks.all fun mark => mark matches .char .. then return literal text
  else return wild marks

def matchesName (segment : Segment) (name : String) : Bool :=
  match segment with
  | literal text => name = text
  | wild marks => Mark.matchesName marks name.toList
  | anyFolders => false

/-- The names for the folder itself and the one around it, if the pattern begins with a dot that
matches them. -/
def dots : Segment → List String
  | wild (.char '.' :: marks) => ["..", "."].filter fun name =>
    Mark.matchesName (.char '.' :: marks) name.toList
  | _ => []

end Segment

end PayloadContracts.CommandLine
