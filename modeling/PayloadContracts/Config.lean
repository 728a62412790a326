/-!
Settings of a contract.
-/

namespace PayloadContracts

/-- What becomes of keys and attributes that a pattern does not declare. -/
inductive KeyPolicy where
  | strict
  | permissive
  deriving DecidableEq, Repr

def KeyPolicy.name : KeyPolicy → String
  | strict => "strict"
  | permissive => "permissive"

structure Config where
  unexpectedKeys : KeyPolicy := .strict
  /-- How many named patterns may be entered one inside the other. -/
  depthLimit : Nat := 256
  /-- How many cases one enumeration may yield. -/
  caseLimit : Nat := 1000000
  deriving DecidableEq, Repr

/-- The settings as compact JSON. -/
def Config.text (c : Config) : String :=
  "\x7b\"unexpected_keys\":\"" ++ c.unexpectedKeys.name ++ "\",\"max_named_depth\":" ++
    toString c.depthLimit ++ ",\"max_combinations\":" ++ toString c.caseLimit ++ "\x7d"

end PayloadContracts
