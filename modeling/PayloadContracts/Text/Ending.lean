/-!
Marks at the end of a text.
-/

namespace PayloadContracts.Text

def endsWith (s mark : String) : Bool := mark.toList.isSuffixOf s.toList

/-- The text with the mark at its end removed once, if it has one. -/
def stripEnd? (s mark : String) : Option String :=
  if endsWith s mark then some (String.ofList (s.toList.take (s.length - mark.length))) else none

def withoutEnd (s mark : String) : String := (stripEnd? s mark).getD s

def startsWith (s start : String) : Bool := start.toList.isPrefixOf s.toList

end PayloadContracts.Text
