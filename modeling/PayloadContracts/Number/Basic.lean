/-!
Double-precision numbers as exact values, and rounding to the nearest of them.
-/

namespace PayloadContracts

/-- A finite number is `± significand * 2 ^ exponent`. Rounding yields a significand below `2 ^ 53`
that is at least `2 ^ 52` unless the exponent is the least one. -/
inductive Number where
  | nan
  | infinite (negative : Bool)
  | finite (negative : Bool) (significand : Nat) (exponent : Int)
  deriving DecidableEq, Repr, Inhabited

namespace Number

def leastExponent : Int := -1074
def greatestExponent : Int := 971

def zero : Number := .finite false 0 leastExponent

/-- Numbers as an order sees them: the undefined number equals itself, and the two zeros are one. -/
def same : Number → Number → Bool
  | nan, nan => true
  | infinite a, infinite b => a == b
  | finite a m e, finite b n f => (m == 0 && n == 0) || (a == b && m == n && e == f)
  | _, _ => false

theorem same_refl (x : Number) : same x x = true := by
  cases x <;> simp [same]

theorem same_comm (x y : Number) : same x y = same y x := by
  cases x <;> cases y <;> simp only [same]
  · rw [Bool.beq_comm]
  · rename_i a m e b n f
    rw [Bool.eq_iff_iff]
    simp only [Bool.or_eq_true, Bool.and_eq_true, beq_iff_eq]
    grind

theorem same_trans {x y z : Number} (h : same x y = true) (h' : same y z = true) :
    same x z = true := by
  cases x <;> cases y <;> cases z <;> simp_all only [same, Bool.false_eq_true, beq_iff_eq]
  all_goals grind

/-- The whole number nearest to `num / den`; a half goes to the even neighbour. -/
def roundQuotient (num den : Nat) : Nat :=
  let q := num / den
  let r := num % den
  if 2 * r < den then q else if den < 2 * r then q + 1 else if q % 2 = 0 then q else q + 1

/-- The fraction `num / den / 2 ^ e`. -/
def scale (num den : Nat) (e : Int) : Nat × Nat :=
  if 0 ≤ e then (num, den * Nat.pow 2 e.toNat) else (num * Nat.pow 2 (-e).toNat, den)

/-- The number nearest to `± num / den`, infinite when that is out of range. -/
def ofRatio (negative : Bool) (num den : Nat) : Number :=
  if num = 0 then .finite negative 0 leastExponent
  else
    let low := max ((num.log2 : Int) - den.log2 - 53) leastExponent
    let (n, d) := scale num den low
    let e := if Nat.pow 2 53 ≤ n / d then low + 1 else low
    let (n, d) := scale num den e
    let m := roundQuotient n d
    let (m, e) := if m = Nat.pow 2 53 then (Nat.pow 2 52, e + 1) else (m, e)
    if greatestExponent < e then .infinite negative else .finite negative m e

def ofNat (n : Nat) : Number := ofRatio false n 1

def ofInt (i : Int) : Number := ofRatio (decide (i < 0)) i.natAbs 1

/-- The number nearest to `± digits * 10 ^ exponent`. -/
def ofDecimal (negative : Bool) (digits : Nat) (exponent : Int) : Number :=
  let magnitude := (digits.log2 : Int) * 30103 / 100000 + exponent
  if digits = 0 ∨ magnitude < -400 then .finite negative 0 leastExponent
  else if 400 < magnitude then .infinite negative
  else if 0 ≤ exponent then ofRatio negative (digits * Nat.pow 10 exponent.toNat) 1
  else ofRatio negative digits (Nat.pow 10 (-exponent).toNat)

def isZero : Number → Bool
  | finite _ m _ => m == 0
  | _ => false

def isFinite : Number → Bool
  | finite .. => true
  | _ => false

def withSign (negative : Bool) : Number → Number
  | nan => nan
  | infinite _ => infinite negative
  | finite _ m e => finite negative m e

/-- The nearest number to a product, for finite factors. -/
def mul : Number → Number → Number
  | finite a m e, finite b n f =>
    let (num, den) := scale (m * n) 1 (-(e + f))
    ofRatio (a != b) num den
  | _, _ => nan

/-- The nearest number to a quotient, for a finite dividend and a finite divisor other than zero. -/
def div : Number → Number → Number
  | finite a m e, finite b n f =>
    let (num, den) := scale m n (f - e)
    ofRatio (a != b) num den
  | _, _ => nan

/-- The whole number that a number is, if it is one. -/
def toInt? : Number → Option Int
  | finite negative m e =>
    let sign : Int := if negative then -1 else 1
    if 0 ≤ e then some (sign * (m * Nat.pow 2 e.toNat : Nat))
    else if m % Nat.pow 2 (-e).toNat = 0 then some (sign * (m / Nat.pow 2 (-e).toNat : Nat))
    else none
  | _ => none

/-- The signed 64-bit word that a number is shown as: a whole number in the range of such words, the
upper end of the range included. -/
def toWord? (x : Number) : Option Int :=
  match x.toInt? with
  | some i =>
    let bound : Int := Nat.pow 2 63
    if -bound ≤ i ∧ i ≤ bound then some (min i (bound - 1)) else none
  | none => none

end Number

end PayloadContracts
