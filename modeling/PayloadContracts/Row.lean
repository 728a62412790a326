import PayloadContracts.Entries
import PayloadContracts.Error

/-!
Rows of example text, one text a column.
-/

namespace PayloadContracts

/-- The example text of each column that has one. -/
abbrev Row := Entries String

/-- Pairs columns with texts; there have to be as many of both. -/
def Row.ofColumns (columns values : List String) : Except ContractError Row :=
  if columns.length ≠ values.length then .error (.rowShape columns.length values.length)
  else .ok (Entries.ofList (columns.zip values))

end PayloadContracts
