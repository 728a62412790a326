import PayloadContracts.Json.Basic
import PayloadContracts.Number.Text

/-!
JSON documents as text: compact, and spread over lines.
-/

namespace PayloadContracts

def JsonNumber.text : JsonNumber → String
  | .whole i => toString i
  | .real x => Number.Layout.json.text x

namespace Json

/-- A character as it stands between quotes. -/
def escape (c : Char) : List Char :=
  if c = '"' then ['\\', '"']
  else if c = '\\' then ['\\', '\\']
  else if c = '\n' then ['\\', 'n']
  else if c = '\r' then ['\\', 'r']
  else if c = '\t' then ['\\', 't']
  else if c.toNat = 8 then ['\\', 'b']
  else if c.toNat = 12 then ['\\', 'f']
  else if c.toNat < 32 then
    ['\\', 'u', '0', '0', Nat.digitChar (c.toNat / 16), Nat.digitChar (c.toNat % 16)]
  else [c]

def quote (s : String) : String := String.ofList ('"' :: s.toList.flatMap escape ++ ['"'])

/-- Without any white space. -/
def compact : Json → String
  | .null => "null"
  | .boolean b => if b then "true" else "false"
  | .number n => n.text
  | .text s => quote s
  | .list items => "[" ++ ",".intercalate (items.map fun item => compact item) ++ "]"
  | .object fields =>
    "\x7b" ++ ",".intercalate (fields.map fun field => quote field.1 ++ ":" ++ compact field.2) ++ "\x7d"
termination_by json => sizeOf json
decreasing_by
  · rename_i h; have := List.sizeOf_lt_of_mem h; simp; omega
  · rename_i h; have := Entries.sizeOf_snd_lt h; simp; omega

def indent (depth : Nat) : String := String.ofList ('\n' :: List.replicate (2 * depth) ' ')

/-- One item or field a line, two blanks for each level. -/
def spread (depth : Nat) : Json → String
  | .list items =>
    if items.isEmpty then "[]"
    else "[" ++ indent (depth + 1) ++
      ("," ++ indent (depth + 1)).intercalate (items.map fun item => spread (depth + 1) item) ++
      indent depth ++ "]"
  | .object fields =>
    if fields.isEmpty then "\x7b\x7d"
    else "\x7b" ++ indent (depth + 1) ++
      ("," ++ indent (depth + 1)).intercalate
        (fields.map fun field => quote field.1 ++ ": " ++ spread (depth + 1) field.2) ++
      indent depth ++ "\x7d"
  | other => other.compact
termination_by json => sizeOf json
decreasing_by
  · rename_i h; have := List.sizeOf_lt_of_mem h; simp; omega
  · rename_i h; have := Entries.sizeOf_snd_lt h; simp; omega

def pretty (json : Json) : String := spread 0 json

end Json

end PayloadContracts
