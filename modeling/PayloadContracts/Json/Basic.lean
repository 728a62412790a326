import PayloadContracts.Entries
import PayloadContracts.Number.Basic

/-!
JSON documents with their objects in written order.
-/

namespace PayloadContracts

/-- A whole number that fits a 64-bit word, signed or not, is kept as written; all others are
double-precision numbers. -/
inductive JsonNumber where
  | whole (i : Int)
  | real (x : Number)
  deriving DecidableEq, Repr

inductive Json where
  | null
  | boolean (b : Bool)
  | number (n : JsonNumber)
  | text (s : String)
  | list (items : List Json)
  | object (fields : List (String × Json))
  deriving Inhabited

theorem Entries.sizeOf_snd_lt {α : Type} [SizeOf α] {entries : List (String × α)}
    {entry : String × α} (h : entry ∈ entries) : sizeOf entry.2 < sizeOf entries := by
  have := List.sizeOf_lt_of_mem h
  cases entry
  simp only [Prod.mk.sizeOf_spec] at *
  omega

def JsonNumber.toNumber : JsonNumber → Number
  | .whole i => Number.ofInt i
  | .real x => x

end PayloadContracts
