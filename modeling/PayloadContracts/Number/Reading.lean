import PayloadContracts.Number.Basic
import PayloadContracts.Text.Blank
import PayloadContracts.Text.Digit

/-!
Numbers written in decimal: a sign, digits with a point among or around them, and an exponent.
-/

namespace PayloadContracts

/-- The parts of a written number. -/
structure Numeral where
  negative : Bool
  whole : List Char
  fraction : List Char
  exponentNegative : Bool
  exponent : List Char
  deriving DecidableEq, Repr

namespace Numeral

/-- The sign at the front, and what follows it. -/
def splitSign : List Char → Bool × List Char
  | '+' :: rest => (false, rest)
  | '-' :: rest => (true, rest)
  | rest => (false, rest)

/-- The digits after a point, and what follows them. -/
def splitFraction (isDigit : Char → Bool) : List Char → List Char × List Char
  | '.' :: rest => (rest.takeWhile isDigit, rest.dropWhile isDigit)
  | rest => ([], rest)

/-- The sign and digits of an exponent that takes up all of the text; no text is no exponent. -/
def readExponent (isDigit : Char → Bool) : List Char → Option (Bool × List Char)
  | [] => some (false, [])
  | c :: rest =>
    if c = 'e' ∨ c = 'E' then
      let (negative, digits) := splitSign rest
      if digits ≠ [] ∧ digits.all isDigit then some (negative, digits) else none
    else none

/-- Reads a number written with the given digits. -/
def read? (isDigit : Char → Bool) (cs : List Char) : Option Numeral :=
  let (negative, rest) := splitSign cs
  let whole := rest.takeWhile isDigit
  let (fraction, rest) := splitFraction isDigit (rest.dropWhile isDigit)
  if whole = [] ∧ fraction = [] then none
  else (readExponent isDigit rest).map fun (exponentNegative, exponent) =>
    { negative, whole, fraction, exponentNegative, exponent }

/-- The nearest number, for a numeral written in plain digits. -/
def toNumber (n : Numeral) : Number :=
  let power : Int := Text.ofDigits n.exponent
  Number.ofDecimal n.negative (Text.ofDigits (n.whole ++ n.fraction))
    ((if n.exponentNegative then -power else power) - n.fraction.length)

end Numeral

namespace Number

/-- Text that has the form of a number, in the digits of any script. -/
def looksNumeric (s : String) : Bool :=
  (Numeral.read? Text.isDecimalDigit (Text.trimChars s.toList)).isSome

/-- The number that a text stands for; only plain digits have a value. -/
def read? (s : String) : Option Number :=
  if looksNumeric s then
    (Numeral.read? Text.isPlainDigit (Text.trimChars s.toList)).map Numeral.toNumber
  else none

end Number

end PayloadContracts
