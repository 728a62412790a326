import PayloadContracts.Number.Basic

/-!
The fewest decimal digits that read back to a number.
-/

namespace PayloadContracts.Number

/-- `digits * 10 ^ exponent`. -/
structure Decimal where
  digits : Nat
  exponent : Int
  deriving DecidableEq, Repr

/-- Where a decimal halfway between two equally short ones goes. -/
inductive Tie where
  | up
  | even
  deriving DecidableEq, Repr

/-- The points, in quarters of the last place, between which all reals round to
`significand * 2 ^ exponent`. The distance to the neighbour below is halved at a power of two. -/
def bounds (significand : Nat) (exponent : Int) : Nat × Nat :=
  let below := if significand = Nat.pow 2 52 ∧ leastExponent < exponent then 1 else 2
  (4 * significand - below, 4 * significand + 2)

/-- Of the two multiples of `10 ^ p` around a number the nearer one that reads back to it. -/
def onGrid (tie : Tie) (significand : Nat) (exponent p : Int) : Option Decimal :=
  let (low, high) := bounds significand exponent
  -- a quarter of the last place is `unit / grid` steps of the grid
  let (unit, grid) := scale 1 1 (2 - exponent)
  let (unit, grid) :=
    if 0 ≤ p then (unit, grid * Nat.pow 10 p.toNat) else (unit * Nat.pow 10 (-p).toNat, grid)
  let inside (d : Nat) : Bool :=
    if significand % 2 = 0 then low * unit ≤ d * grid && d * grid ≤ high * unit
    else low * unit < d * grid && d * grid < high * unit
  let down := 4 * significand * unit / grid
  let up := down + 1
  let toDown := 4 * significand * unit - down * grid
  let toUp := up * grid - 4 * significand * unit
  let downFirst :=
    toDown < toUp || (toDown == toUp && (match tie with | .up => false | .even => down % 2 == 0))
  match inside down, inside up with
  | true, true => some ⟨if downFirst then down else up, p⟩
  | true, false => some ⟨down, p⟩
  | false, true => some ⟨up, p⟩
  | false, false => none

/-- The decimal of fewest digits among those that read back, found on the coarsest grid of powers
of ten that has one. -/
def shortest (tie : Tie) (significand : Nat) (exponent : Int) : Decimal :=
  if significand = 0 then ⟨0, 0⟩
  else
    let top := ((significand.log2 : Int) + 1 + exponent) * 30103 / 100000 + 1
    ((List.range 40).findSome? fun (i : Nat) => onGrid tie significand exponent (top - i)).getD ⟨0, 0⟩

end PayloadContracts.Number
