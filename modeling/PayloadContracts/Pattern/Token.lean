import PayloadContracts.Pattern.Basic

/-!
Tokens: a name in round brackets, followed by any number of marks. A star makes a list of what
stands before it, a question mark allows its absence.
-/

namespace PayloadContracts.Token

def isBracket (c : Char) : Bool := c = '(' || c = ')'

/-- What stands between the brackets of a token: something not blank, without brackets. -/
def content? (text : String) : Option (List Char) :=
  match Text.trimChars text.toList with
  | '(' :: rest =>
    match rest.reverse with
    | ')' :: reversed =>
      if reversed.any isBracket || reversed.all Text.isBlank then none else some reversed.reverse
    | _ => none
  | _ => none

def isToken (text : String) : Bool := (content? text).isSome

/-- The pattern of a name: a builtin kind of value, or a reference. -/
def ofName (name : String) : Pattern :=
  match Scalar.ofTokenName? name with
  | some kind => .scalar kind
  | none => .reference ("(" ++ name ++ ")")

/-- Reads the content of a token from its end. -/
def ofReversed : List Char → Option Pattern
  | [] => none
  | c :: rest =>
    if Text.isBlank c then ofReversed rest
    else if c = '*' then (ofReversed rest).map .list
    else if c = '?' then (ofReversed rest).map .nullable
    else some (ofName (String.ofList (Text.trimStart (c :: rest).reverse)))

/-- The pattern of a token; marks without a name before them have none. -/
def read? (text : String) : Option Pattern := (content? text).bind fun cs => ofReversed cs.reverse

end PayloadContracts.Token
