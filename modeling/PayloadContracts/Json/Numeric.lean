import PayloadContracts.Json.Basic
import PayloadContracts.Json.Cursor
import PayloadContracts.Text.Digit

/-!
Reading numbers. A number with a fraction or an exponent, or too large for a 64-bit word, is read in
three roundings: the digits that fit such a word, the power of ten, and their product or quotient.
-/

namespace PayloadContracts.Json

def greatestWord : Nat := Nat.pow 2 64 - 1

/-- Appends digits while the number fits a word; yields it and the digits left over. -/
def fillWord (n : Nat) : List Char → Nat × List Char
  | [] => (n, [])
  | d :: ds =>
    let next := 10 * n + Text.ofDigits [d]
    if next ≤ greatestWord then fillWord next ds else (n, d :: ds)

/-- Multiplies by a power of ten in steps of at most `10 ^ 308`; nothing if the product is out of
range. -/
def scaleByTen (x : Number) (power : Int) : Option Number :=
  if 308 < power then if x.isZero then some x else none
  else if 0 ≤ power then
    let y := x.mul (Number.ofNat (Nat.pow 10 power.toNat))
    if y.isFinite then some y else none
  else if -308 ≤ power then some (x.div (Number.ofNat (Nat.pow 10 (-power).toNat)))
  else if x.isZero then some x
  else scaleByTen (x.div (Number.ofNat (Nat.pow 10 308))) (power + 308)
termination_by (-power).toNat
decreasing_by omega

def greatestPower : Nat := Nat.pow 2 31 - 1

/-- Reads the digits of an exponent up to the one that makes it too large, if there is one: the
digits read, and whether they are too large. -/
def readPower (n : Nat) : List Char → List Char × Bool
  | [] => ([], false)
  | d :: ds =>
    let next := 10 * n + Text.ofDigits [d]
    if greatestPower < next then ([d], true)
    else
      let (read, large) := readPower next ds
      (d :: read, large)

namespace Cursor

def skipDigits (c : Cursor) : Cursor := c.skipOver (c.rest.takeWhile Text.isPlainDigit)

def realNumber (c : Cursor) (negative : Bool) (digits : Nat) (power : Int) : Read JsonNumber :=
  match scaleByTen (Number.ofNat digits) power with
  | some x => .ok (.real (x.withSign negative), c)
  | none => c.fail .outOfRange

/-- Reads from the `e` on. -/
def readExponent (c : Cursor) (negative : Bool) (digits : Nat) (power : Int) : Read JsonNumber :=
  let c := c.skip
  let (down, c) : Bool × Cursor :=
    match c.rest with
    | '+' :: _ => (false, c.skip)
    | '-' :: _ => (true, c.skip)
    | _ => (false, c)
  match c.rest with
  | [] => c.fail .endOfValue
  | d :: _ =>
    if !Text.isPlainDigit d then c.failAtNext .badNumber
    else
      let (ds, large) := readPower 0 (c.rest.takeWhile Text.isPlainDigit)
      if large then
        if digits ≠ 0 ∧ !down then (c.skipOver ds).fail .outOfRange
        else .ok (.real (Number.zero.withSign negative), c.skipDigits)
      else
        let e : Int := Text.ofDigits ds
        (c.skipOver ds).realNumber negative digits (if down then power - e else power + e)

/-- Reads from what follows the whole digits on; `dropped` of these did not fit a word. -/
def readFraction (c : Cursor) (negative : Bool) (digits dropped : Nat) : Read JsonNumber :=
  match c.rest with
  | '.' :: _ =>
    let c := c.skip
    let places := c.rest.takeWhile Text.isPlainDigit
    if places.isEmpty then
      if c.rest.isEmpty then c.fail .endOfValue else c.failAtNext .badNumber
    else
      let (digits, left) := fillWord digits places
      let power : Int := dropped - (places.length - left.length : Nat)
      let c := c.skipDigits
      match c.rest with
      | 'e' :: _ | 'E' :: _ => c.readExponent negative digits power
      | _ => c.realNumber negative digits power
  | 'e' :: _ | 'E' :: _ => c.readExponent negative digits dropped
  | _ =>
    if dropped ≠ 0 then c.realNumber negative digits dropped
    else if !negative then .ok (.whole digits, c)
    else if digits = 0 ∨ Nat.pow 2 63 < digits then
      .ok (.real ((Number.ofNat digits).withSign true), c)
    else .ok (.whole (-(digits : Int)), c)

/-- Reads a number from its sign or first digit on. -/
def readNumber (c : Cursor) : Read JsonNumber :=
  let (negative, c) : Bool × Cursor :=
    match c.rest with
    | '-' :: _ => (true, c.skip)
    | _ => (false, c)
  match c.rest with
  | [] => c.fail .endOfValue
  | d :: rest =>
    if !Text.isPlainDigit d then c.failAtNext .badNumber
    else if d = '0' then
      match rest with
      | [] => c.skip.readFraction negative 0 0
      | x :: _ =>
        if Text.isPlainDigit x then c.skip.failAtNext .badNumber else c.skip.readFraction negative 0 0
    else
      let (digits, left) := fillWord 0 (c.rest.takeWhile Text.isPlainDigit)
      c.skipDigits.readFraction negative digits left.length

/-- Passes a number without finding out which; its end in the middle is a bad number too. -/
def skipNumber (c : Cursor) : Read Unit :=
  let c := match c.rest with
    | '-' :: _ => c.skip
    | _ => c
  let leading := c.rest.takeWhile Text.isPlainDigit
  if leading.isEmpty then c.failAtNext .badNumber
  else if leading.head? = some '0' ∧ 1 < leading.length then c.skip.failAtNext .badNumber
  else
    let c := c.skipDigits
    let fraction : Read Unit :=
      match c.rest with
      | '.' :: _ =>
        let c := c.skip
        if (c.rest.takeWhile Text.isPlainDigit).isEmpty then c.failAtNext .badNumber
        else .ok ((), c.skipDigits)
      | _ => .ok ((), c)
    match fraction with
    | .error e => .error e
    | .ok (_, c) =>
      match c.rest with
      | 'e' :: _ | 'E' :: _ =>
        let c := c.skip
        let c := match c.rest with
          | '+' :: _ | '-' :: _ => c.skip
          | _ => c
        if (c.rest.takeWhile Text.isPlainDigit).isEmpty then c.failAtNext .badNumber
        else .ok ((), c.skipDigits)
      | _ => .ok ((), c)

end Cursor

end PayloadContracts.Json
