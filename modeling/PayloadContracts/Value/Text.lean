import PayloadContracts.Value.Basic
import PayloadContracts.Json.Text

/-!
Values as JSON, as markup and as text.
-/

namespace PayloadContracts

/-- A character as it stands in markup. -/
def escapeMarkup (c : Char) : List Char :=
  if c = '&' then ['&', 'a', 'm', 'p', ';']
  else if c = '<' then ['&', 'l', 't', ';']
  else if c = '>' then ['&', 'g', 't', ';']
  else if c = '"' then ['&', 'q', 'u', 'o', 't', ';']
  else [c]

def escapedMarkup (s : String) : String := String.ofList (s.toList.flatMap escapeMarkup)

/-- A number inside a document: a whole number where it is shown as one, nothing where JSON has no
way to write it. -/
def Number.toJson (x : Number) : Json :=
  match x.toWord? with
  | some i => .number (.whole i)
  | none => if x.isFinite then .number (.real x) else .null

mutual

/-- The document of a value; an element is the text of its markup. -/
def Value.toJson : Value → Json
  | .null => .null
  | .boolean b => .boolean b
  | .number x => x.toJson
  | .text s => .text s
  | .object fields => .object (fields.map fun field => (field.1, field.2.toJson))
  | .list items => .list (items.map fun item => item.toJson)
  | .node n => .text n.markup
termination_by v => (sizeOf v, 1)
decreasing_by
  · rename_i h; have := Entries.sizeOf_snd_lt h; left; simp; omega
  · rename_i h; have := List.sizeOf_lt_of_mem h; left; simp; omega
  · left; simp

/-- The element in angle brackets, with a closing tag if it has children. -/
def Node.markup (n : Node Value) : String :=
  let attributes := n.attributes.map fun entry =>
    " " ++ entry.1 ++ "=\"" ++ escapedMarkup entry.2 ++ "\""
  let contents := n.children.map fun child => child.content
  if n.children.isEmpty then "<" ++ n.realName ++ "".intercalate attributes ++ "/>"
  else
    "<" ++ n.realName ++ "".intercalate attributes ++ ">" ++ "".intercalate contents ++
      "</" ++ n.realName ++ ">"
termination_by (sizeOf n, 0)
decreasing_by
  rename_i h; have := List.sizeOf_lt_of_mem h; have := n.sizeOf_children_lt; left; omega

/-- A child as it stands in the markup of its element. -/
def Value.content : Value → String
  | .null => ""
  | .text s => escapedMarkup s
  | .node n => n.markup
  | .boolean b => if b then "true" else "false"
  | .number x => escapedMarkup x.display
  | .object fields => escapedMarkup (Value.object fields).toJson.compact
  | .list items => escapedMarkup (Value.list items).toJson.compact
termination_by v => (sizeOf v, 2)

end

namespace Value

/-- A value on its own. -/
def display : Value → String
  | null => "null"
  | boolean b => if b then "true" else "false"
  | number x => x.display
  | text s => s
  | node n => n.markup
  | v => v.toJson.compact

/-- A value as the text of an attribute or element. -/
def toText : Value → String
  | null => ""
  | v => v.display

/-- A value in a message, text in quotes. -/
def quoted : Value → String
  | text s => "\"" ++ s ++ "\""
  | v => v.display

end Value

end PayloadContracts
