import PayloadContracts.Number.Digits

/-!
Numbers as text.
-/

namespace PayloadContracts.Number

/-- How a number is written: where ties among shortest decimals go, for which powers of ten of the
first digit all places are written out (always, if none are named), and whether a whole number
keeps a fraction digit. -/
structure Layout where
  tie : Tie
  places : Option (Int × Int)
  keepsFraction : Bool

/-- All digits, never an exponent. -/
def Layout.plain : Layout := ⟨.up, none, false⟩

/-- As compact JSON writes a number that is not a whole one. -/
def Layout.json : Layout := ⟨.even, some (-5, 15), true⟩

def zeroDigits (n : Nat) : String := String.ofList (List.replicate n '0')

/-- All places of a decimal written out. -/
def Decimal.positional (keepsFraction : Bool) (d : Decimal) : String :=
  let ds := Nat.toDigits 10 d.digits
  let point : Int := ds.length + d.exponent
  if 0 ≤ d.exponent then
    String.ofList ds ++ zeroDigits d.exponent.toNat ++ (if keepsFraction then ".0" else "")
  else if 0 < point then
    String.ofList (ds.take point.toNat) ++ "." ++ String.ofList (ds.drop point.toNat)
  else "0." ++ zeroDigits (-point).toNat ++ String.ofList ds

/-- One digit, a fraction if there are more, and the power of ten of the first digit. -/
def Decimal.scientific (d : Decimal) : String :=
  let ds := Nat.toDigits 10 d.digits
  let power : Int := ds.length - 1 + d.exponent
  String.ofList (ds.take 1) ++ (if ds.length ≤ 1 then "" else "." ++ String.ofList (ds.drop 1)) ++
    (if power < 0 then "e-" else "e+") ++ toString power.natAbs

def Layout.decimal (layout : Layout) (d : Decimal) : String :=
  let power : Int := (Nat.toDigits 10 d.digits).length - 1 + d.exponent
  match layout.places with
  | none => d.positional layout.keepsFraction
  | some (low, high) =>
    if d.digits = 0 ∨ (low ≤ power ∧ power ≤ high) then d.positional layout.keepsFraction
    else d.scientific

def Layout.text (layout : Layout) : Number → String
  | nan => "NaN"
  | infinite negative => if negative then "-inf" else "inf"
  | finite negative m e =>
    (if negative then "-" else "") ++ layout.decimal (shortest layout.tie m e)

/-- The shortest text that reads back, without an exponent. -/
def plainText (x : Number) : String := Layout.plain.text x

/-- A number on its own: as a whole number where that is one, otherwise as plain text. -/
def display (x : Number) : String :=
  match x.toWord? with
  | some i => toString i
  | none => x.plainText

end PayloadContracts.Number
